import DedupImage.Image.Build
import DedupImage.Proofs.Placement.Evidence

/-!
# Scheduling

An image is begun and its sources are requested one after another (`ImageBuild.of`). If nothing is
refused, the items are the requests in order, each at a place of its own, all block sizes are sound, and
the placement is as it began but for the announced block sizes (`ImageBuild.of_scheduled`).
-/

namespace DedupImage

/-- A source to be scheduled. Without a block size it is cut into blocks of the image's block size. -/
structure Request where
  source : Source
  rank : Nat
  blockSize : Option Nat := none

namespace Request

/-- The size of the blocks into which a requested source is cut. -/
def sizeIn (r : Request) (config : ImageConfig) : Nat := r.blockSize.getD config.blockSize

/-- The item of a request. -/
def item (config : ImageConfig) (slot : Nat) (r : Request) : ScheduledItem :=
  ⟨r.source, r.rank, r.sizeIn config, slot⟩

end Request

namespace ImageConfig

variable {config : ImageConfig}

/-- What a configuration without a fault says of its containers. -/
theorem containerSize_of_fault? (h : config.fault? = none) :
    0 < config.containerSize ∧ config.containerSize ≤ containerSizeLimit := by
  unfold fault? at h
  by_cases hsize : config.containerSize = 0 ∨ containerSizeLimit < config.containerSize
  · rw [if_pos hsize] at h
    cases h
  · omega

theorem check_eq_ok (h : config.check = .ok ()) :
    config.fault? = none ∧ config.scheme.supported = true := by
  unfold check at h
  cases hfault : config.fault? with
  | some f =>
    rw [hfault] at h
    cases h
  | none =>
    rw [hfault] at h
    by_cases hscheme : config.scheme.supported = true
    · exact ⟨rfl, hscheme⟩
    · simp [hscheme] at h

/-- The offsets into the containers of a checked configuration are words. -/
theorem containerSize_lt (h : config.check = .ok ()) : config.containerSize < 2 ^ 32 := by
  have hlimit := (containerSize_of_fault? (check_eq_ok h).1).2
  unfold containerSizeLimit at hlimit
  omega

theorem size_pos_of_blockSizeFault? {size containerSize : Nat}
    (h : blockSizeFault? size containerSize = none) : 0 < size := by
  unfold blockSizeFault? at h
  by_cases hsize : size = 0 ∨ containerSize < size
  · rw [if_pos hsize] at h
    cases h
  · omega

end ImageConfig

namespace ImageBuild

/-- Schedule what is requested. -/
def request (b : ImageBuild) (r : Request) : Except Failure ImageBuild :=
  match r.blockSize with
  | some size => b.schedule r.source r.rank size
  | none => b.scheduleDefault r.source r.rank

/-- Schedule in order until a request is refused. -/
def requestAll (b : ImageBuild) : List Request → Except Failure ImageBuild
  | [] => .ok b
  | r :: rest =>
    match b.request r with
    | .error e => .error e
    | .ok b => b.requestAll rest

/-- Begin an image and schedule its sources. -/
def of (tools : BuildTools) (config : ImageConfig) (checkpoint : Option CheckpointPlace)
    (medium : Medium) (requests : List Request) : Except Failure ImageBuild :=
  match start tools config checkpoint medium with
  | .error e => .error e
  | .ok b => b.requestAll requests

/-- An image that was begun, and for which these requests were scheduled. -/
structure Scheduled (tools : BuildTools) (config : ImageConfig) (medium : Medium)
    (done : List Request) (b : ImageBuild) : Prop where
  sameTools : b.tools = tools
  sameConfig : b.config = config
  sameMedium : b.medium = medium
  items : b.items.reverse = done.mapIdx (Request.item config)
  sizes : ∀ r ∈ done, 0 < r.sizeIn config
  consistent : b.placement.Consistent
  capacity : b.placement.store.capacity = config.containerSize

variable {tools : BuildTools} {config : ImageConfig} {checkpoint : Option CheckpointPlace}
  {medium : Medium} {requests done rest : List Request} {b b' : ImageBuild}

/-- An image is begun if its configuration and the options of its codec pass their checks. -/
theorem start_eq_ok (h : start tools config checkpoint medium = .ok b) :
    config.check = .ok () ∧ ∃ setting,
      CodecSetting.configure config.scheme config.allOptions = .ok setting ∧
      b =
        { tools := tools
          config := config
          setting := setting
          checkpoint := checkpoint
          medium := medium
          placement := config.startPlacement tools } := by
  unfold start at h
  cases hcheck : config.check with
  | error e =>
    rw [hcheck] at h
    cases h
  | ok _ =>
    rw [hcheck] at h
    cases hsetting : CodecSetting.configure config.scheme config.allOptions with
    | error e =>
      rw [hsetting] at h
      cases h
    | ok setting =>
      rw [hsetting] at h
      exact ⟨rfl, setting, rfl, (Except.ok.inj h).symm⟩

theorem start_scheduled (h : start tools config checkpoint medium = .ok b) :
    config.check = .ok () ∧ Scheduled tools config medium [] b := by
  obtain ⟨hcheck, setting, -, rfl⟩ := start_eq_ok h
  have hcapacity := ImageConfig.containerSize_lt hcheck
  refine ⟨hcheck, rfl, rfl, rfl, rfl, ?_, Placement.start_consistent hcapacity, rfl⟩
  intro r hr
  cases hr

/-- A source that is scheduled with a size takes the next place. -/
theorem schedule_scheduled (hb : Scheduled tools config medium done b) {r : Request}
    (h : b.schedule r.source r.rank (r.sizeIn config) = .ok b') :
    Scheduled tools config medium (done ++ [r]) b' := by
  unfold schedule at h
  cases hfault : ImageConfig.blockSizeFault? (r.sizeIn config) b.config.containerSize with
  | some f =>
    rw [hfault] at h
    cases h
  | none =>
    rw [hfault] at h
    obtain rfl := Except.ok.inj h
    have hlength : b.items.length = done.length := by
      rw [← List.length_reverse, hb.items, List.length_mapIdx]
    refine ⟨hb.sameTools, hb.sameConfig, hb.sameMedium, ?_, ?_,
      hb.consistent.congr rfl rfl rfl, hb.capacity⟩
    · rw [List.reverse_cons, hb.items, List.mapIdx_concat, hlength]
      rfl
    · intro r' hr'
      rcases List.mem_append.mp hr' with hr' | hr'
      · exact hb.sizes r' hr'
      · obtain rfl := List.mem_singleton.mp hr'
        exact ImageConfig.size_pos_of_blockSizeFault? hfault

theorem request_scheduled (hb : Scheduled tools config medium done b) {r : Request}
    (h : b.request r = .ok b') : Scheduled tools config medium (done ++ [r]) b' := by
  apply schedule_scheduled hb
  unfold request at h
  unfold Request.sizeIn
  cases hsize : r.blockSize with
  | some size =>
    rw [hsize] at h
    exact h
  | none =>
    rw [hsize, scheduleDefault, hb.sameConfig] at h
    exact h

theorem requestAll_scheduled (hb : Scheduled tools config medium done b)
    (h : b.requestAll rest = .ok b') : Scheduled tools config medium (done ++ rest) b' := by
  induction rest generalizing b done with
  | nil =>
    obtain rfl := Except.ok.inj h
    rw [List.append_nil]
    exact hb
  | cons r rest ih =>
    unfold requestAll at h
    cases hr : b.request r with
    | error e =>
      rw [hr] at h
      cases h
    | ok next =>
      rw [hr] at h
      have hall := ih (request_scheduled hb hr) h
      rwa [List.append_assoc, List.singleton_append] at hall

/-- A build is begun before its requests are scheduled. -/
theorem of_eq_ok_iff :
    of tools config checkpoint medium requests = .ok b ↔
      ∃ first, start tools config checkpoint medium = .ok first ∧ first.requestAll requests = .ok b := by
  unfold of
  cases start tools config checkpoint medium with
  | error e => simp
  | ok first => simp

/-- **What was requested is scheduled.** -/
theorem of_scheduled (h : of tools config checkpoint medium requests = .ok b) :
    config.check = .ok () ∧ Scheduled tools config medium requests b := by
  obtain ⟨first, hstart, hall⟩ := of_eq_ok_iff.mp h
  obtain ⟨hcheck, hfirst⟩ := start_scheduled hstart
  exact ⟨hcheck, requestAll_scheduled hfirst hall⟩

/-! ## The items in the order of placing -/

namespace Scheduled

variable (h : Scheduled tools config medium requests b)

include h

theorem mem_sort_iff {item : ScheduledItem} :
    item ∈ ScheduledItem.sort b.items.reverse ↔
      ∃ (i : Nat) (r : Request), requests[i]? = some r ∧ r.item config i = item := by
  unfold ScheduledItem.sort
  rw [List.mem_mergeSort, h.items, List.mem_iff_getElem?]
  simp only [List.getElem?_mapIdx, Option.map_eq_some_iff]

/-- Every item is cut into blocks that are not empty. -/
theorem blockSize_pos {item : ScheduledItem} (hitem : item ∈ ScheduledItem.sort b.items.reverse) :
    0 < item.blockSize := by
  obtain ⟨i, r, hr, rfl⟩ := h.mem_sort_iff.mp hitem
  exact h.sizes r (List.mem_of_getElem? hr)

/-- Every item has a place in the lists. -/
theorem slot_lt {item : ScheduledItem} (hitem : item ∈ ScheduledItem.sort b.items.reverse) :
    item.slot < b.items.length := by
  obtain ⟨i, r, hr, rfl⟩ := h.mem_sort_iff.mp hitem
  rw [← List.length_reverse, h.items, List.length_mapIdx]
  exact (List.getElem?_eq_some_iff.mp hr).1

/-- No two items have the same place. -/
theorem slots_distinct :
    (ScheduledItem.sort b.items.reverse).Pairwise fun first second => first.slot ≠ second.slot := by
  have hscheduled : b.items.reverse.Pairwise fun first second => first.slot ≠ second.slot := by
    rw [h.items, List.pairwise_iff_getElem]
    intro i j hi hj hij
    rw [List.getElem_mapIdx, List.getElem_mapIdx]
    exact Nat.ne_of_lt hij
  have hperm := List.mergeSort_perm b.items.reverse ScheduledItem.before
  exact hscheduled.perm hperm.symm fun hne => hne.symm

end Scheduled

end ImageBuild

end DedupImage
