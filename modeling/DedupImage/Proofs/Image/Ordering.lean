import DedupImage.Proofs.Batch.Order
import DedupImage.Proofs.Image.Flushing

/-!
# The order of scheduling makes no difference

Sources may be scheduled in any order, as long as those of one class and name stay in their order
(`SameOrder`). The two builds then have the same items, at other places, and sets of block sizes that came
about in another order (`ImageBuild.of_reordered`). They are placed in step, so they end in the same way
and leave the same image, and every source receives the same list (`scheduling_order_makes_no_difference`).
-/

namespace DedupImage

open ScheduledItem BatchState

/-! ## Requests -/

/-- What a request is sorted by: its class and the bytes of its name. -/
def Request.key (r : Request) : Nat × List UInt8 := (r.rank, r.source.name.data.toList)

/-- The same requests, those with one key in one order. -/
def SameOrder (requests requests' : List Request) : Prop :=
  ∀ k, (requests.filter fun r => r.key = k) = requests'.filter fun r => r.key = k

/-- The lists of the requests with a key, in the order of the requests. -/
def received (requests : List Request) (lists : Array (Array BlockNum)) (k : Nat × List UInt8) :
    List (Option (Array BlockNum)) :=
  (requests.zipIdx.filter fun p => p.1.key = k).map fun p => lists[p.2]?

variable {requests requests' : List Request}

theorem SameOrder.mem_iff (h : SameOrder requests requests') {r : Request} :
    r ∈ requests ↔ r ∈ requests' := by
  have hmem (rs : List Request) : (r ∈ rs.filter fun s => s.key = r.key) ↔ r ∈ rs := by
    rw [List.mem_filter, decide_eq_true_eq, and_iff_left rfl]
  rw [← hmem requests, ← hmem requests', h r.key]

/-- Two requests with different keys may change places. -/
theorem SameOrder.swap {r r' : Request} (h : r.key ≠ r'.key) (rest : List Request) :
    SameOrder (r :: r' :: rest) (r' :: r :: rest) := by
  intro k
  by_cases hr : r.key = k
  · have hr' : r'.key ≠ k := fun heq => h (hr.trans heq.symm)
    simp [hr, hr']
  · simp [List.filter_cons, hr]

/-- Where keys are distinct there are no two elements with one key. -/
theorem pairwise_filter_key {α κ : Type} [DecidableEq κ] {key : α → κ} {l : List α}
    (h : (l.map key).Nodup) (k : κ) : (l.filter fun a => key a = k).Pairwise fun _ _ => False := by
  refine ((List.pairwise_map.mp h).filter _).imp_of_mem ?_
  intro a b ha hb hne
  have hak := of_decide_eq_true (List.mem_filter.mp ha).2
  have hbk := of_decide_eq_true (List.mem_filter.mp hb).2
  exact hne (hak.trans hbk.symm)

/-- If the keys are distinct, any order will do. -/
theorem sameOrder_of_perm (h : requests.Perm requests') (hdistinct : (requests.map Request.key).Nodup) :
    SameOrder requests requests' := by
  intro k
  have hdistinct' : (requests'.map Request.key).Nodup := (h.map _).nodup_iff.mp hdistinct
  exact (h.filter _).eq_of_pairwise (fun _ _ _ _ hfalse => hfalse.elim)
    (pairwise_filter_key hdistinct k) (pairwise_filter_key hdistinct' k)

theorem map_fst_zipIdx_filter (requests : List Request) (k : Nat × List UInt8) :
    (requests.zipIdx.filter fun p => p.1.key = k).map Prod.fst = requests.filter fun r => r.key = k := by
  conv_rhs => rw [← List.zipIdx_map_fst 0 requests, List.filter_map]
  rfl

/-- If the keys are distinct, a request is the only one with its key. -/
theorem received_of_distinct (hdistinct : (requests.map Request.key).Nodup) {i : Nat} {r : Request}
    (hi : requests[i]? = some r) (lists : Array (Array BlockNum)) :
    received requests lists r.key = [lists[i]?] := by
  have hkeys : (requests.zipIdx.map fun p => p.1.key) = requests.map Request.key := by
    conv_rhs => rw [← List.zipIdx_map_fst 0 requests, List.map_map]
    rfl
  have hpairwise := pairwise_filter_key (hkeys ▸ hdistinct) r.key
  have hmem : (r, i) ∈ requests.zipIdx.filter fun p => p.1.key = r.key :=
    List.mem_filter.mpr ⟨List.mk_mem_zipIdx_iff_getElem?.mpr hi, by simp⟩
  unfold received
  match hall : requests.zipIdx.filter fun p => p.1.key = r.key with
  | [] =>
    rw [hall] at hmem
    cases hmem
  | [p] =>
    rw [hall] at hmem
    obtain rfl := List.mem_singleton.mp hmem
    rw [hall]
    rfl
  | p :: q :: rest =>
    rw [hall] at hpairwise
    exact ((List.pairwise_cons.mp hpairwise).1 q List.mem_cons_self).elim

/-! ## Results -/

/-- The containers and the block table of a batch that was placed. -/
def Placed.stored (p : Placed) : ContainerStore × Array BlockRecord :=
  (p.state.placement.store, p.state.placement.blocks)

/-- Two builds come to the same, and the requests with one key receive the same lists in their order. -/
structure SameResult (requests requests' : List Request) (b b' : ImageBuild) : Prop where
  /-- The summaries are equal, or the failures are. -/
  outcome : b'.flush.outcome = b.flush.outcome
  medium : b'.flush.medium = b.flush.medium
  checkpoint : b'.flush.checkpoint = b.flush.checkpoint
  stored : b'.placed.map Placed.stored = b.placed.map Placed.stored
  lists : ∀ k, received requests' b'.flush.lists k = received requests b.flush.lists k

namespace ImageBuild

variable {tools : BuildTools} {config : ImageConfig} {checkpoint : Option CheckpointPlace}
  {medium : Medium} {b b' : ImageBuild}

/-! ## Accepted requests -/

/-- Take in a request that is not refused. -/
def enlist (b : ImageBuild) (r : Request) : ImageBuild :=
  { b with
    items := r.item b.config b.items.length :: b.items
    placement := b.placement.addBlockSize (r.sizeIn b.config) }

theorem request_eq (b : ImageBuild) (r : Request) :
    b.request r =
      match ImageConfig.blockSizeFault? (r.sizeIn b.config) b.config.containerSize with
      | some f => .error (.invalidConfig f)
      | none => .ok (b.enlist r) := by
  unfold request Request.sizeIn
  rcases hsize : r.blockSize with _ | size
  · unfold scheduleDefault schedule enlist Request.item Request.sizeIn
    rw [hsize]
    rfl
  · unfold schedule enlist Request.item Request.sizeIn
    rw [hsize]
    rfl

/-- Requests are accepted if their block sizes are, in whatever order they come. -/
theorem requestAll_eq_ok_iff {rest : List Request} :
    b.requestAll rest = .ok b' ↔
      (∀ r ∈ rest, ImageConfig.blockSizeFault? (r.sizeIn b.config) b.config.containerSize = none) ∧
        b' = rest.foldl enlist b := by
  induction rest generalizing b with
  | nil =>
    rw [requestAll, Except.ok.injEq]
    exact ⟨fun h => ⟨fun r hr => absurd hr List.not_mem_nil, h.symm⟩, fun h => h.2.symm⟩
  | cons r rest ih =>
    rw [requestAll, request_eq]
    cases hfault : ImageConfig.blockSizeFault? (r.sizeIn b.config) b.config.containerSize with
    | some f => simp [hfault]
    | none =>
      dsimp only
      rw [ih, List.forall_mem_cons]
      exact ⟨fun h => ⟨⟨hfault, h.1⟩, h.2⟩, fun h => ⟨h.1.2, h.2⟩⟩

theorem foldl_enlist (b : ImageBuild) (rest : List Request) :
    ∃ items, rest.foldl enlist b =
      { b with
        items := items
        placement := (rest.map fun r => r.sizeIn b.config).foldl Placement.addBlockSize b.placement } := by
  induction rest generalizing b with
  | nil => exact ⟨b.items, rfl⟩
  | cons r rest ih =>
    obtain ⟨items, hitems⟩ := ih (b.enlist r)
    exact ⟨items, hitems⟩

/-- **The same requests in another order are accepted**, and make a build with the same settings, and with
a set of block sizes that came about in another order. -/
theorem of_reordered (hsame : SameOrder requests requests')
    (h : of tools config checkpoint medium requests = .ok b) :
    ∃ items placement, of tools config checkpoint medium requests' =
        .ok { b with items := items, placement := placement } ∧
      b.placement.Resized placement := by
  obtain ⟨first, hstart, hall⟩ := of_eq_ok_iff.mp h
  obtain ⟨hsizes, rfl⟩ := requestAll_eq_ok_iff.mp hall
  obtain ⟨items, hitems⟩ := first.foldl_enlist requests
  obtain ⟨items', hitems'⟩ := first.foldl_enlist requests'
  rw [hitems]
  refine ⟨items',
    (requests'.map fun r => r.sizeIn first.config).foldl Placement.addBlockSize first.placement, ?_, ?_⟩
  · exact of_eq_ok_iff.mpr ⟨first, hstart,
      requestAll_eq_ok_iff.mpr ⟨fun r hr => hsizes r (hsame.mem_iff.mpr hr), hitems'.symm⟩⟩
  · apply Placement.resized_addBlockSize
    intro n
    simp only [List.mem_map, hsame.mem_iff]

/-! ## Items -/

/-- The items of a key are those of its requests. -/
theorem Scheduled.filter_items (h : Scheduled tools config medium requests b)
    (k : Nat × List UInt8) :
    (b.items.reverse.filter fun i => i.key = k) =
      (requests.zipIdx.filter fun p => p.1.key = k).map fun p => p.1.item config p.2 := by
  rw [h.items, List.mapIdx_eq_zipIdx_map, List.filter_map]
  rfl

theorem Scheduled.received_eq (h : Scheduled tools config medium requests b)
    (lists : Array (Array BlockNum)) (k : Nat × List UInt8) :
    received requests lists k = (b.sorted.filter fun i => i.key = k).map fun i => lists[i.slot]? := by
  rw [sorted, filter_sort, h.filter_items, List.map_map]
  rfl

/-- The corresponding places of two builds. -/
def places (b b' : ImageBuild) : List (Nat × Nat) := (b.sorted.map slot).zip (b'.sorted.map slot)

/-- What two builds of the same requests have in common. -/
structure Reordered (b b' : ImageBuild) : Prop where
  tools : b'.tools = b.tools
  config : b'.config = b.config
  checkpoint : b'.checkpoint = b.checkpoint
  medium : b'.medium = b.medium
  count : b'.items.length = b.items.length
  sizes : b.placement.Resized b'.placement
  /-- The items stand in the same order, and differ at most in their places. -/
  items : List.Forall₂ (fun i j => SameWork i j ∧ (i.slot, j.slot) ∈ b.places b') b.sorted b'.sorted
  /-- No two items have one place. -/
  distinct : ∀ p ∈ b.places b', ∀ q ∈ b.places b', p.1 = q.1 ↔ p.2 = q.2
  inside : ∀ p ∈ b.places b', p.1 < b.items.length ∧ p.2 < b.items.length

theorem Scheduled.reordered (h : Scheduled tools config medium requests b)
    (h' : Scheduled tools config medium requests' b') (hsame : SameOrder requests requests')
    (hcheckpoint : b'.checkpoint = b.checkpoint) (hsizes : b.placement.Resized b'.placement) :
    Reordered b b' := by
  have hwork : List.Forall₂ SameWork b.sorted b'.sorted := by
    apply sort_sameWork
    intro k
    have hrequests : List.Forall₂ (fun p q : Request × Nat => p.1 = q.1)
        (requests.zipIdx.filter fun p => p.1.key = k) (requests'.zipIdx.filter fun p => p.1.key = k) := by
      rw [forall₂_iff_map_eq, map_fst_zipIdx_filter, map_fst_zipIdx_filter]
      exact hsame k
    rw [h.filter_items, h'.filter_items, List.forall₂_map_left_iff, List.forall₂_map_right_iff]
    apply hrequests.imp
    rintro ⟨r, i⟩ ⟨_, j⟩ rfl
    exact ⟨rfl, rfl, rfl⟩
  have hcount : b'.items.length = b.items.length := by
    have := hwork.length_eq
    rw [sorted, sorted, sort, sort, List.length_mergeSort, List.length_mergeSort,
      List.length_reverse, List.length_reverse] at this
    exact this.symm
  obtain ⟨hlength, hzip⟩ := List.forall₂_iff_zip.mp hwork
  refine ⟨h'.sameTools.trans h.sameTools.symm, h'.sameConfig.trans h.sameConfig.symm, hcheckpoint,
    h'.sameMedium.trans h.sameMedium.symm, hcount, hsizes, ?_, ?_, ?_⟩
  · refine List.forall₂_iff_zip.mpr ⟨hlength, fun {i j} hij => ⟨hzip hij, ?_⟩⟩
    unfold places
    rw [List.zip_map]
    exact List.mem_map.mpr ⟨(i, j), hij, rfl⟩
  · intro p hp q hq
    exact eq_iff_of_mem_zip (List.pairwise_map.mpr h.slots_distinct)
      (List.pairwise_map.mpr h'.slots_distinct) hp hq
  · intro p hp
    obtain ⟨hfirst, hsecond⟩ := List.of_mem_zip hp
    obtain ⟨i, hi, hislot⟩ := List.mem_map.mp hfirst
    obtain ⟨j, hj, hjslot⟩ := List.mem_map.mp hsecond
    rw [← hislot, ← hjslot]
    exact ⟨h.slot_lt hi, hcount ▸ h'.slot_lt hj⟩

/-! ## Flushing -/

namespace Reordered

variable (h : Reordered b b')

include h

theorem sameWork : List.Forall₂ SameWork b.sorted b'.sorted := h.items.imp fun _ _ hij => hij.1

/-- The batches are prepared alike. -/
theorem prepare : b'.prepare b'.sorted = b.prepare b.sorted := by
  unfold ImageBuild.prepare
  rw [h.tools, h.config, h.checkpoint, Checkpoint.prepare_congr h.sameWork]

theorem begin_inStep : InStep b.begin b'.begin ∧ Matched (b.places b') b.begin.lists b'.begin.lists := by
  refine ⟨⟨h.sizes, rfl⟩, ?_⟩
  intro p hp
  obtain ⟨hfirst, hsecond⟩ := h.inside p hp
  unfold begin
  dsimp only
  rw [h.count, Array.getElem?_replicate, Array.getElem?_replicate, if_pos hfirst, if_pos hsecond]

/-- They are placed in step, or cannot be prepared. -/
theorem placed_inStep :
    (∃ e, b.placed = .error e ∧ b'.placed = .error e) ∨
      ∃ p p' : Placed, b.placed = .ok p ∧ b'.placed = .ok p' ∧ p'.outcome = p.outcome ∧
        p'.checkpoint = p.checkpoint ∧ InStep p.state p'.state ∧
        Matched (b.places b') p.state.lists p'.state.lists := by
  unfold placed
  rw [h.prepare]
  cases b.prepare b.sorted with
  | error e => exact .inl ⟨e, rfl, rfl⟩
  | ok prepared =>
    obtain ⟨hbegin, hlists⟩ := h.begin_inStep
    obtain ⟨hanswer, hstep, hmatched⟩ := placeAll_inStep hbegin h.distinct hlists prepared.repeats
      prepared.openings h.items
    exact .inr ⟨_, _, rfl, rfl, hanswer, rfl, hstep, hmatched⟩

/-- Batches that were placed in step end in the same way, and leave the same image. -/
theorem close_inStep {p p' : Placed} (houtcome : p'.outcome = p.outcome)
    (hcheckpoint : p'.checkpoint = p.checkpoint) (hstep : InStep p.state p'.state) :
    (b'.close (.ok p')).outcome = (b.close (.ok p)).outcome ∧
      (b'.close (.ok p')).medium = (b.close (.ok p)).medium ∧
      (b'.close (.ok p')).checkpoint = (b.close (.ok p)).checkpoint := by
  obtain ⟨outcome, s, checkpoint⟩ := p
  obtain ⟨outcome', t, checkpoint'⟩ := p'
  obtain rfl : outcome' = outcome := houtcome
  cases outcome' with
  | error e => exact ⟨rfl, h.medium, hcheckpoint⟩
  | ok _ =>
    obtain ⟨sizes, -, hplacement⟩ := hstep.placement
    have hrun : (b'.script t.placement).run b'.medium = (b.script s.placement).run b.medium := by
      unfold script
      rw [h.tools, h.config, h.medium, show t.placement = _ from hplacement]
      rfl
    have hsummary : summary t.placement t.placed.size = summary s.placement s.placed.size := by
      rw [show t.placement = _ from hplacement, show t.placed = _ from hstep.placed]
      rfl
    unfold close
    dsimp only
    rw [hrun, hsummary]
    exact ⟨rfl, rfl, hcheckpoint⟩

end Reordered

/-- Two builds of the same requests come to the same. -/
theorem Reordered.sameResult (hreordered : Reordered b b')
    (h : Scheduled tools config medium requests b)
    (h' : Scheduled tools config medium requests' b') : SameResult requests requests' b b' := by
  have hlists {lists lists' : Array (Array BlockNum)} (hmatched : Matched (b.places b') lists lists')
      (k : Nat × List UInt8) : received requests' lists' k = received requests lists k := by
    have hrelated : List.Forall₂ (fun i j => i.key = j.key ∧ lists[i.slot]? = lists'[j.slot]?)
        b.sorted b'.sorted := by
      apply hreordered.items.imp
      rintro i j ⟨⟨hsource, hrank, -⟩, hplace⟩
      refine ⟨?_, (hmatched _ hplace).symm⟩
      rw [key, key, nameBytes, nameBytes, hsource, hrank]
    have hfilter := List.rel_filter
      (p := fun i : ScheduledItem => decide (i.key = k)) (q := fun j : ScheduledItem => decide (j.key = k))
      (fun i j hij => by dsimp only; rw [hij.1]) hrelated
    rw [h.received_eq, h'.received_eq]
    exact (forall₂_iff_map_eq.mp (hfilter.imp fun _ _ hij => hij.2)).symm
  rcases hreordered.placed_inStep with
    ⟨e, hp, hp'⟩ | ⟨p, p', hp, hp', houtcome, hcheckpoint, hstep, hmatched⟩
  · refine ⟨?_, ?_, ?_, by rw [hp, hp'], fun k => hlists ?_ k⟩ <;>
      rw [b.flush_eq_close, b'.flush_eq_close, hp, hp']
    · rfl
    · exact hreordered.medium
    · exact hreordered.checkpoint
    · exact hreordered.begin_inStep.2
  · obtain ⟨hout, hmedium, hplace⟩ := hreordered.close_inStep houtcome hcheckpoint hstep
    obtain ⟨sizes, -, hplacement⟩ := hstep.placement
    refine ⟨?_, ?_, ?_, ?_, fun k => hlists ?_ k⟩
    · rw [b.flush_eq_close, b'.flush_eq_close, hp, hp', hout]
    · rw [b.flush_eq_close, b'.flush_eq_close, hp, hp', hmedium]
    · rw [b.flush_eq_close, b'.flush_eq_close, hp, hp', hplace]
    · have hstored : p'.stored = p.stored := by
        unfold Placed.stored
        rw [hplacement]
        rfl
      rw [hp, hp']
      exact congrArg Except.ok hstored
    · rw [b.flush_eq_close, b'.flush_eq_close, hp, hp', lists_close, lists_close]
      exact hmatched

theorem of_sameResult (hsame : SameOrder requests requests')
    (h : of tools config checkpoint medium requests = .ok b) :
    ∃ b', of tools config checkpoint medium requests' = .ok b' ∧
      SameResult requests requests' b b' := by
  obtain ⟨items, placement, hof, hsizes⟩ := of_reordered hsame h
  have hscheduled := (of_scheduled h).2
  have hscheduled' := (of_scheduled hof).2
  exact ⟨_, hof,
    (hscheduled.reordered hscheduled' hsame rfl hsizes).sameResult hscheduled hscheduled'⟩

end ImageBuild

/-! ## Main result -/

/-- **The order of scheduling makes no difference.** Let an image be built from requests, with any
configuration, checkpoint and medium.

If no two requests agree in class and name, they may come in any order: then they are accepted too, and
both builds have the same summary or the same failure, the same containers and the same block table; they
leave the same bytes on the medium, and every request receives the same list.

If some do agree, it is enough that these stay in their order. -/
theorem scheduling_order_makes_no_difference (tools : BuildTools) (config : ImageConfig)
    (checkpoint : Option CheckpointPlace) (medium : Medium) (requests requests' : List Request)
    (b : ImageBuild) (h : ImageBuild.of tools config checkpoint medium requests = .ok b) :
    (requests.Perm requests' → (requests.map Request.key).Nodup →
      ∃ b', ImageBuild.of tools config checkpoint medium requests' = .ok b' ∧
        SameResult requests requests' b b' ∧
        ∀ (i i' : Nat) r, requests[i]? = some r → requests'[i']? = some r →
          b'.flush.lists[i']? = b.flush.lists[i]?) ∧
    (SameOrder requests requests' →
      ∃ b', ImageBuild.of tools config checkpoint medium requests' = .ok b' ∧
        SameResult requests requests' b b') := by
  refine ⟨?_, fun hsame => ImageBuild.of_sameResult hsame h⟩
  intro hperm hdistinct
  obtain ⟨b', hof, hresult⟩ := ImageBuild.of_sameResult (sameOrder_of_perm hperm hdistinct) h
  refine ⟨b', hof, hresult, ?_⟩
  intro i i' r hi hi'
  have hlists := hresult.lists r.key
  rw [received_of_distinct hdistinct hi,
    received_of_distinct ((hperm.map _).nodup_iff.mp hdistinct) hi'] at hlists
  exact (List.cons.inj hlists).1

/-- A source to be scheduled with the name of the second one. -/
def namesake : Request := { source := .ofBytes ⟨#[97]⟩ ⟨#[3, 1, 2]⟩, rank := 0 }

/-- The image for which requests were scheduled. -/
def orderedBuild (requests : List Request) : ImageBuild :=
  requests.foldl ImageBuild.enlist
    { tools := collidingTools
      config := collidingConfig
      setting := ⟨.zstd, 12⟩
      checkpoint := none
      medium := .limited 1000
      placement := collidingConfig.startPlacement collidingTools }

/-- Two sources of different names may come in either order. With a namesake of the second behind them,
they still may, and both sources of this name receive the same as before. -/
theorem namesakes_receive_their_lists :
    (∃ b', ImageBuild.of collidingTools collidingConfig none (.limited 1000)
        collidingRequests.reverse = .ok b' ∧
      b'.flush.medium = (orderedBuild collidingRequests).flush.medium ∧
      b'.flush.lists[1]? = (orderedBuild collidingRequests).flush.lists[0]?) ∧
    ∃ b', ImageBuild.of collidingTools collidingConfig none (.limited 1000)
        (collidingRequests.reverse ++ [namesake]) = .ok b' ∧
      b'.flush.outcome = (orderedBuild (collidingRequests ++ [namesake])).flush.outcome ∧
      received (collidingRequests.reverse ++ [namesake]) b'.flush.lists namesake.key =
        received (collidingRequests ++ [namesake])
          (orderedBuild (collidingRequests ++ [namesake])).flush.lists namesake.key := by
  constructor
  · obtain ⟨b', hof, hresult, hlists⟩ := (scheduling_order_makes_no_difference collidingTools
      collidingConfig none (.limited 1000) collidingRequests collidingRequests.reverse
      (orderedBuild collidingRequests) (by cbv)).1 (List.reverse_perm _).symm (by decide)
    exact ⟨b', hof, hresult.medium, hlists 0 1 _ rfl rfl⟩
  · obtain ⟨b', hof, hresult⟩ := (scheduling_order_makes_no_difference collidingTools
      collidingConfig none (.limited 1000) (collidingRequests ++ [namesake])
      (collidingRequests.reverse ++ [namesake]) (orderedBuild (collidingRequests ++ [namesake]))
      (by cbv)).2 (SameOrder.swap (by decide) [namesake])
    exact ⟨b', hof, hresult.outcome, hresult.lists namesake.key⟩

end DedupImage
