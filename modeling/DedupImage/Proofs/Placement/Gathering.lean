import DedupImage.Proofs.Index.FullView
import DedupImage.Proofs.Placement.Failures
import DedupImage.Proofs.Placement.Hashing

/-!
# Strings that the catalog leads to

A string is covered when the catalog has a block entry or a window entry for it that proves true. As long
as the catalog loses nothing, a covered string is found (`lookup_of_covered`), and placing it writes
nothing (`place_of_covered`).

Nearly every step only adds to the catalog (`Gathers`), and then what was covered stays covered. The one
that takes something out is making a window a block. The entry that is taken out has the hash of the
block, so if no two strings have one hash, it is the block's own, and the new block entry makes up for it
(`takeHit_covered`).
-/

namespace DedupImage

/-- Looking up loses nothing and keeps all entries. -/
theorem FullView.of_consulted {ι : Type} [Catalog ι] (V : FullView ι) {x y : ι} (hx : V.Valid x)
    (hintact : V.Intact x) (h : Catalog.Consulted x y) :
    V.Valid y ∧ V.Intact y ∧ ∀ e, V.Holds x e → V.Holds y e := by
  induction h with
  | refl => exact ⟨hx, hintact, fun _ he => he⟩
  | tail _ hstep ih =>
    obtain ⟨hvalid, hintact, hkept⟩ := ih
    obtain ⟨hash, rfl | rfl⟩ := hstep
    · have hreal := V.intact_findReal hvalid hintact hash
      exact ⟨V.valid_apply hvalid (.findReal hash), hreal, fun e he =>
        V.keepsAll_apply hvalid (r := .findReal hash) (fun _ _ h => nomatch h) hreal (hkept e he)⟩
    · have hwindow := V.intact_findWindow hvalid hintact hash
      exact ⟨V.valid_apply hvalid (.findWindow hash), hwindow, fun e he =>
        V.keepsAll_apply hvalid (r := .findWindow hash) (fun _ _ h => nomatch h) hwindow (hkept e he)⟩

namespace Placement

open Catalog

variable {ι : Type} [Catalog ι] {V : FullView ι} {p q r : Placement ι}

/-! ## Entries that stay -/

/-- The catalog has the entry. -/
def Has (V : FullView ι) (p : Placement ι) (e : CatalogEntry) : Prop :=
  ∃ x, p.index = some x ∧ V.Holds x e

theorem Has.holds {x : ι} {e : CatalogEntry} (h : Has V p e) (hx : p.index = some x) :
    V.Holds x e := by
  obtain ⟨x', hx', he⟩ := h
  obtain rfl := Option.some.inj (hx'.symm.trans hx)
  exact he

theorem Has.congr {e : CatalogEntry} (h : Has V p e) (hindex : q.index = p.index) : Has V q e := by
  obtain ⟨x, hx, he⟩ := h
  exact ⟨x, hindex.trans hx, he⟩

/-- A catalog that is asked is there afterwards. -/
theorem Via.after {P : CatalogEntry → Prop} {x : ι} (h : Via P p q) (hx : p.index = some x) :
    ∃ y, q.index = some y ∧ Reached P x y := by
  unfold Via at h
  rw [hx] at h
  generalize q.index = after at h
  cases h with
  | some hreached => exact ⟨_, rfl, hreached⟩

/-- Block entries stay as long as nothing is lost. -/
theorem Has.asked {hash : UInt32} {b : BlockNum} (h : Has V p (.block hash b)) (hasked : Asked p q)
    (hvalid : IndexValid V.toKeepingView p) (hintact : IndexIntact V.toKeepingView q) :
    Has V q (.block hash b) := by
  obtain ⟨x, hx, he⟩ := h
  obtain ⟨y, hy, hreached⟩ := hasked.after hx
  exact ⟨y, hy, V.keeps_reached (hvalid x hx) hreached (hintact y hy) he⟩

/-- Requests lead from one catalog to the other, and the entries of the first are entries of the
second as long as nothing is lost. -/
structure Gathers (V : FullView ι) (p q : Placement ι) : Prop where
  asked : Asked p q
  retains : IndexValid V.toKeepingView p → IndexIntact V.toKeepingView q → ∀ e, Has V p e → Has V q e

namespace Gathers

theorem of_eq (h : q.index = p.index) : Gathers V p q where
  asked := .of_eq h
  retains _ _ _ he := he.congr h

theorem trans (h : Gathers V p q) (h' : Gathers V q r) : Gathers V p r where
  asked := Via.trans h.asked h'.asked
  retains hp hr _ he :=
    have hq := hp.asked h.asked
    h'.retains hq hr _ (h.retains hp (hr.of_asked hq h'.asked) _ he)

/-- A request that is no deletion keeps the entries. -/
theorem of_request {x : ι} (request : CatalogRequest) (hp : p.index = some x)
    (hq : q.index = some (request.apply x)) (hrequest : ∀ h l, request ≠ .deleteWindow h l) :
    Gathers V p q where
  asked := .of_some hp hq (.single ⟨request, rfl, fun _ _ => trivial⟩)
  retains hvalid hintact _ he :=
    ⟨_, hq, V.keepsAll_apply (hvalid x hp) hrequest (hintact _ hq) (he.holds hp)⟩

end Gathers

theorem keptByWindows_gathers : KeptByWindows (Gathers V) where
  refl _ := .of_eq rfl
  trans := .trans
  addWindow p l window := by
    unfold addWindow
    cases hx : p.index with
    | none => exact .of_eq rfl
    | some x =>
      dsimp only
      split
      · exact .of_request (.findWindow _) hx rfl fun _ _ h => nomatch h
      · have hfind : Gathers V p
            { p with index := some (findWindow x (p.settings.hash window)).2 } :=
          .of_request (.findWindow _) hx rfl fun _ _ h => nomatch h
        exact hfind.trans (.of_request (.addWindow _ l) rfl rfl fun _ _ h => nomatch h)

theorem addWindow_gathers (p : Placement ι) (l : Location) (window : ByteArray) :
    Gathers V p (p.addWindow l window) :=
  keptByWindows_gathers.addWindow p l window

theorem predict_gathers (p : Placement ι) (l : Location) (length : Nat) :
    Gathers V p (p.predict l length) :=
  keptByWindows_gathers.predict p l length

theorem addWindows_gathers (p : Placement ι) (container blockSize first n : Nat) :
    Gathers V p (p.addWindows container blockSize first n) :=
  keptByWindows_gathers.addWindows p container blockSize first n

theorem enterWindows_gathers (p : Placement ι) (container size : Nat) (overlapped : Bool)
    (blockSize : Nat) : Gathers V p (p.enterWindows container size overlapped blockSize) :=
  keptByWindows_gathers.enterWindows (fun _ _ => .of_eq rfl) p container size overlapped blockSize

theorem enrol_gathers (p : Placement ι) (r : BlockRecord) (hash : UInt32) (indexed : Bool) :
    Gathers V p (p.enrol r hash indexed).2 := by
  cases indexed with
  | false => exact .of_eq (p.register_index r)
  | true =>
    cases hx : p.index with
    | none =>
      refine .of_eq ?_
      show (p.register r).2.index.map _ = p.index
      rw [register_index, hx]
      rfl
    | some x => exact .of_request (.addReal hash _) hx (enrol_index hx) fun _ _ h => nomatch h

theorem lookup_gathers (p : Placement ι) (data : ByteArray) : Gathers V p (p.lookup data).2 where
  asked := p.lookup_asked data
  retains := by
    rintro hvalid hintact e ⟨x, hx, he⟩
    have hp : V.Intact x := hintact.of_asked hvalid (p.lookup_asked data) x hx
    have hindex := (p.lookup_unharmed data).index
    rw [hx] at hindex
    generalize hy : (p.lookup data).2.index = after at hindex
    cases hindex with
    | some hconsulted => exact ⟨_, hy, (V.of_consulted (hvalid x hx) hp hconsulted).2.2 e he⟩

/-- A look-up loses nothing. -/
theorem lookup_intact (hvalid : IndexValid V.toKeepingView p) (hp : IndexIntact V.toKeepingView p)
    (data : ByteArray) : IndexIntact V.toKeepingView (p.lookup data).2 := by
  intro y hy
  have hindex := (p.lookup_unharmed data).index
  rw [hy] at hindex
  generalize hx : p.index = before at hindex
  cases hindex with
  | some hconsulted => exact (V.of_consulted (hvalid _ hx) (hp _ hx) hconsulted).2.1

/-! ## Covered strings -/

/-- The catalog leads to the string: to a block that consists of it, or to a place where it is stored. -/
def Covered (V : FullView ι) (p : Placement ι) (w : ByteArray) : Prop :=
  (∃ b, Has V p (.block (p.settings.hash w) b) ∧ p.Resolves b w) ∨
    ∃ l, Has V p (.window (p.settings.hash w) l) ∧ p.store.holds l w = true

theorem Covered.later {w : ByteArray} (h : Covered V p w) (hext : p.Extends q)
    (hkept : ∀ e, Has V p e → Has V q e) : Covered V q w := by
  unfold Covered
  rw [hext.settings]
  rcases h with ⟨b, hb, hresolves⟩ | ⟨l, hl, hholds⟩
  · exact .inl ⟨b, hkept _ hb, hext.resolves hresolves⟩
  · exact .inr ⟨l, hkept _ hl, hext.store.holds hholds⟩

theorem Covered.gathered {w : ByteArray} (h : Covered V p w) (hext : p.Extends q)
    (hgathers : Gathers V p q) (hvalid : IndexValid V.toKeepingView p)
    (hintact : IndexIntact V.toKeepingView q) : Covered V q w :=
  h.later hext (hgathers.retains hvalid hintact)

/-- A window that was entered, or was not because its bytes are known, is covered. -/
theorem addWindow_covered {x : ι} (hx : p.index = some x) (hvalid : IndexValid V.toKeepingView p)
    {l : Location} {window : ByteArray}
    (hintact : IndexIntact V.toKeepingView (p.addWindow l window))
    (hl : p.store.holds l window = true) : Covered V (p.addWindow l window) window := by
  unfold addWindow at hintact ⊢
  rw [hx] at hintact ⊢
  dsimp only at hintact ⊢
  split at hintact
  · rename_i hknown
    rw [if_pos hknown]
    obtain ⟨l', hmem, hl'⟩ := List.any_eq_true.mp hknown
    have hheld := V.holds_findWindow (hvalid x hx) hmem
    exact .inr ⟨l', ⟨_, rfl, V.keepsAll_apply (hvalid x hx) (r := .findWindow _)
      (fun _ _ h => nomatch h) (hintact _ rfl) hheld⟩, hl'⟩
  · rename_i hknown
    rw [if_neg hknown]
    have hvalid' := V.valid_apply (hvalid x hx) (.findWindow (p.settings.hash window))
    exact .inr ⟨l, ⟨_, rfl, V.holds_addWindow hvalid' (hintact _ rfl)⟩, hl⟩

/-- A block that was enrolled and entered is covered. -/
theorem enrol_covered {x : ι} (hx : p.index = some x) (hvalid : IndexValid V.toKeepingView p)
    {r : BlockRecord} {data : ByteArray}
    (hresolves : (p.enrol r (p.settings.hash data) true).2.Resolves
      (p.enrol r (p.settings.hash data) true).1 data)
    (hintact : IndexIntact V.toKeepingView (p.enrol r (p.settings.hash data) true).2) :
    Covered V (p.enrol r (p.settings.hash data) true).2 data := by
  have hindex : (p.enrol r (p.settings.hash data) true).2.index =
      some (addReal x (p.settings.hash data) (p.enrol r (p.settings.hash data) true).1) := enrol_index hx
  have hadded := hintact _ hindex
  refine .inl ⟨_, ⟨_, hindex, ?_⟩, hresolves⟩
  rw [(p.enrol_extends r _ true).settings]
  exact V.holds_addReal (hvalid x hx) hadded

/-- What was covered stays covered when a hit is taken, if no two of the strings have one hash. -/
theorem takeHit_covered {S : Set ByteArray} (hinjective : S.InjOn p.settings.hash)
    (hp : p.Consistent) (hvalid : IndexValid V.toKeepingView p) {hit : Hit} {data w : ByteArray}
    (hhit : hit.Stores p data) (hdata : data ∈ S) (hw : w ∈ S)
    (hfit : (p.takeHit (p.settings.hash data) hit data.size).2.Addressable)
    (hintact : IndexIntact V.toKeepingView (p.takeHit (p.settings.hash data) hit data.size).2)
    (h : Covered V p w) : Covered V (p.takeHit (p.settings.hash data) hit data.size).2 w := by
  have hext := p.takeHit_extends (p.settings.hash data) hit data.size
  obtain ⟨hresolves, -, -⟩ := takeHit_resolves hp hhit hfit
  cases hit with
  | block b => exact h.gathered hext (.of_eq rfl) hvalid hintact
  | window l =>
    unfold takeHit at hext hresolves hintact ⊢
    dsimp only at hext hresolves hintact ⊢
    rw [promote_eq] at hext hresolves hintact ⊢
    have hreleased : Asked p (p.releaseWindow (p.settings.hash data) l data.size) :=
      releaseWindow_via _ _ _
    have hvalid' := hvalid.asked hreleased
    have henrol := enrol_gathers (V := V) (p.releaseWindow (p.settings.hash data) l data.size)
      ⟨l, data.size⟩ (p.settings.hash data) true
    have hreleasedIntact := hintact.of_asked hvalid' henrol.asked
    have hkept := henrol.retains hvalid' hintact
    rcases h with ⟨b, ⟨x, hx, he⟩, hb⟩ | ⟨l', ⟨x, hx, he⟩, hl'⟩ <;>
      have hy : (p.releaseWindow (p.settings.hash data) l data.size).index =
        some (deleteWindow x (p.settings.hash data) l) := congrArg (Option.map _) hx <;>
      have hdeleted := hreleasedIntact _ hy
    · refine .inl ⟨b, ?_, hext.resolves hb⟩
      rw [hext.settings]
      exact hkept _ ⟨_, hy, V.keeps_apply (hvalid x hx) (r := .deleteWindow _ l) hdeleted he⟩
    · rcases V.keepsWindow_apply (hvalid x hx) (r := .deleteWindow _ l) hdeleted he with hsame | hheld
      · -- the entry that is taken out is that of the block
        obtain ⟨hhash, rfl⟩ := CatalogRequest.deleteWindow.inj hsame
        obtain rfl := hinjective hdata hw hhash
        exact enrol_covered hy hvalid' hresolves hintact
      · refine .inr ⟨l', ?_, hext.store.holds hl'⟩
        rw [hext.settings]
        exact hkept _ ⟨_, hy, hheld⟩

/-! ## Finding what is covered -/

omit [Catalog ι] in
theorem firstWindow_eq_none {data : ByteArray} {known : List Location}
    (h : p.firstWindow data known = .ok none) {l : Location} (hl : l ∈ known) :
    p.store.holds l data ≠ true := by
  induction known with
  | nil => cases hl
  | cons c rest ih =>
    unfold firstWindow at h
    split at h
    · cases h
    · split at h
      · cases h
      · rename_i hc
        rcases List.mem_cons.mp hl with rfl | hl
        · exact hc
        · exact ih h hl

/-- A window that the catalog holds is found, unless a block is. -/
theorem findHit_of_window (h : Sound V.toLossyView p) (hp : IndexIntact V.toKeepingView p)
    (hoverlaps : p.settings.dedup.overlaps = true) {hash : UInt32} {l : Location} {w : ByteArray}
    (hheld : Has V p (.window hash l)) (hl : p.store.holds l w = true) :
    ∃ hit, (p.findHit hash w).1 = .ok (some hit) := by
  obtain ⟨x, hx, he⟩ := hheld
  have hvalid := h.valid x hx
  have hreal := V.intact_findReal hvalid (hp x hx) hash
  have hvalid' := V.valid_apply hvalid (.findReal hash)
  have hmem := V.mem_findWindow hvalid' (V.intact_findWindow hvalid' hreal hash)
    (V.keepsAll_apply hvalid (r := .findReal hash) (fun _ _ h => nomatch h) hreal he)
  obtain ⟨found, hfound⟩ := findHit_ok h hash w
  unfold findHit at hfound ⊢
  rw [hx] at hfound ⊢
  dsimp only at hfound ⊢
  split at hfound
  · cases hfound
  · exact ⟨_, rfl⟩
  · unfold findWindowHit at hfound ⊢
    rw [if_pos hoverlaps] at hfound ⊢
    dsimp only at hfound ⊢
    split at hfound
    · cases hfound
    · rename_i hnone
      exact absurd hl (firstWindow_eq_none hnone hmem)
    · exact ⟨_, rfl⟩

theorem indexes_of_overlaps {mode : Dedup} (h : mode.overlaps = true) (data : ByteArray) :
    mode.indexes data = true := by
  by_contra hi
  rw [overlaps_of_not_indexes hi] at h
  cases h

/-- A block that the catalog holds is found as a block. -/
theorem lookup_of_block (h : Sound V.toLossyView p) (hp : IndexIntact V.toKeepingView p)
    (hoverlaps : p.settings.dedup.overlaps = true) {w : ByteArray} {b : BlockNum}
    (hheld : Has V p (.block (p.settings.hash w) b)) (hb : p.Resolves b w) :
    ∃ b', (p.lookup w).1 = .ok (some (.block b')) := by
  have hintact := lookup_intact h.valid hp w
  have hcounted := Alike.counted p { p.stats with placed := p.stats.placed + 1 }
  obtain ⟨x, hx, he⟩ := hheld
  unfold lookup at hintact ⊢
  rw [if_pos (indexes_of_overlaps hoverlaps w)] at hintact ⊢
  exact findHit_of_held (h.via hcounted.extends (.of_eq rfl)) hx he (hcounted.resolves_iff.mpr hb) hintact

/-- What is covered is found. -/
theorem lookup_of_covered (h : Sound V.toLossyView p) (hp : IndexIntact V.toKeepingView p)
    (hoverlaps : p.settings.dedup.overlaps = true) {w : ByteArray} (hw : Covered V p w) :
    ∃ hit, (p.lookup w).1 = .ok (some hit) := by
  rcases hw with ⟨b, hheld, hb⟩ | ⟨l, hheld, hl⟩
  · obtain ⟨b', hb'⟩ := lookup_of_block h hp hoverlaps hheld hb
    exact ⟨_, hb'⟩
  · have hsound : Sound V.toLossyView
        { p with stats := { p.stats with placed := p.stats.placed + 1 } } :=
      h.via (Alike.counted p _).extends (.of_eq rfl)
    unfold lookup
    rw [if_pos (indexes_of_overlaps hoverlaps w)]
    exact findHit_of_window hsound hp hoverlaps hheld hl

/-- What a call does that found its block: it returns a number, counts a reuse, and writes nothing. -/
structure Reuses (p : Placement ι) (answer : Except Failure BlockNum × Placement ι) : Prop where
  number : ∃ b, answer.1 = .ok b
  store : answer.2.store = p.store
  writtenBytes : answer.2.stats.writtenBytes = p.stats.writtenBytes
  hits : answer.2.stats.reused + answer.2.stats.windowHits = p.stats.reused + p.stats.windowHits + 1

theorem takeHit_counts (p : Placement ι) (hash : UInt32) (hit : Hit) (length : Nat) :
    (p.takeHit hash hit length).2.stats.writtenBytes = p.stats.writtenBytes ∧
      (p.takeHit hash hit length).2.stats.reused + (p.takeHit hash hit length).2.stats.windowHits =
        p.stats.reused + p.stats.windowHits + 1 := by
  cases hit with
  | block b => exact ⟨rfl, Nat.add_right_comm _ _ _⟩
  | window l =>
    have hstats : (p.takeHit hash (.window l) length).2.stats = (p.releaseWindow hash l length).stats := by
      show (p.promote hash l length).2.stats = _
      rw [promote_eq]
      exact register_stats _ _
    rw [hstats]
    exact ⟨rfl, rfl⟩

theorem place_of_hit {data : ByteArray} {hit : Hit} (h : (p.lookup data).1 = .ok (some hit)) :
    Reuses p (p.place data) := by
  have halike := p.lookup_alike data
  have hstats := p.lookup_stats data
  rcases p.place_cases data with ⟨e, q, hq, hout⟩ | ⟨hit', q, hq, hout⟩ | ⟨q, hq, hout⟩ <;>
    rw [hq] at h halike hstats
  · cases h
  · obtain ⟨n, hn⟩ := predict_counts (q.takeHit (p.settings.hash data) hit' data.size).2
      (q.hitLocation hit') data.size
    obtain ⟨hwritten, hhits⟩ := q.takeHit_counts (p.settings.hash data) hit' data.size
    dsimp only at hstats
    rw [hstats] at hwritten hhits
    rw [hout]
    refine ⟨⟨_, rfl⟩, (useHit_store _ _ _ _).trans halike.store, ?_, ?_⟩ <;> dsimp only <;>
      rw [useHit_eq, hn]
    · exact hwritten
    · exact hhits
  · cases h

/-- Placing a covered string writes nothing. -/
theorem place_of_covered (h : Sound V.toLossyView p) (hp : IndexIntact V.toKeepingView p)
    (hoverlaps : p.settings.dedup.overlaps = true) {w : ByteArray} (hw : Covered V p w) :
    Reuses p (p.place w) := by
  obtain ⟨hit, hhit⟩ := lookup_of_covered h hp hoverlaps hw
  exact place_of_hit hhit

end Placement

end DedupImage
