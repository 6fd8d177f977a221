import DedupImage.Index.Catalog
import Mathlib.Logic.Relation
import Mathlib.Data.Option.Basic

/-!
# What a catalog may remember

`Catalog` has no laws, and for the bytes that a block number stands for none are needed. How much a
placement finds, and whether it can ever meet an entry that nobody made, does depend on the catalog.

A catalog is seen here as a set of entries. A `LossyView` is a view under which the catalog may lose
entries at any time but never makes one up: after a request it holds at most what it held before and what
the request put in. A `KeepingView` can tell in addition when a catalog has lost nothing so far; such a
catalog still holds every block that was put in, and finds it.

`Reached P x y` says that `y` comes from `x` by requests whose new entries satisfy `P`. It is the one
fact about the catalog that a step of placement has to establish, whatever else it does.
-/

namespace DedupImage

/-- What a catalog may remember: a block or a window, under a hash. -/
inductive CatalogEntry where
  | block (hash : UInt32) (number : BlockNum)
  | window (hash : UInt32) (location : Location)

/-- A request to a catalog. -/
inductive CatalogRequest where
  | findReal (hash : UInt32)
  | addReal (hash : UInt32) (number : BlockNum)
  | findWindow (hash : UInt32)
  | addWindow (hash : UInt32) (location : Location)
  | deleteWindow (hash : UInt32) (location : Location)

namespace CatalogRequest

/-- The catalog after a request. -/
def apply {ι : Type} [Catalog ι] (x : ι) : CatalogRequest → ι
  | findReal h => (Catalog.findReal x h).2
  | addReal h b => Catalog.addReal x h b
  | findWindow h => (Catalog.findWindow x h).2
  | addWindow h l => Catalog.addWindow x h l
  | deleteWindow h l => Catalog.deleteWindow x h l

/-- The entry that a request puts in. -/
def entry? : CatalogRequest → Option CatalogEntry
  | findReal _ => none
  | addReal h b => some (.block h b)
  | findWindow _ => none
  | addWindow h l => some (.window h l)
  | deleteWindow _ _ => none

end CatalogRequest

/-! ## Views -/

/-- A catalog as a set of entries, of which it may lose any at any time. -/
structure LossyView (ι : Type) [Catalog ι] where
  /-- The catalog is of a form that its own requests keep. -/
  Valid : ι → Prop
  /-- The catalog has the entry. -/
  Holds : ι → CatalogEntry → Prop
  valid_apply : ∀ {x : ι}, Valid x → ∀ r : CatalogRequest, Valid (r.apply x)
  holds_apply : ∀ {x : ι}, Valid x → ∀ {r : CatalogRequest} {e : CatalogEntry},
    Holds (r.apply x) e → r.entry? = some e ∨ Holds x e
  holds_findReal : ∀ {x : ι}, Valid x → ∀ {h : UInt32} {b : BlockNum},
    b ∈ (Catalog.findReal x h).1 → Holds x (.block h b)
  holds_findWindow : ∀ {x : ι}, Valid x → ∀ {h : UInt32} {l : Location},
    l ∈ (Catalog.findWindow x h).1 → Holds x (.window h l)

/-- The catalog is in order and empty. -/
structure LossyView.Fresh {ι : Type} [Catalog ι] (V : LossyView ι) (x : ι) : Prop where
  valid : V.Valid x
  empty : ∀ e, ¬ V.Holds x e

/-- A view that can tell whether anything was lost so far. Blocks are kept as long as nothing was, and
windows may still be given up. -/
structure KeepingView (ι : Type) [Catalog ι] extends LossyView ι where
  /-- The catalog has lost nothing. -/
  Intact : ι → Prop
  intact_of_apply : ∀ {x : ι}, Valid x → ∀ {r : CatalogRequest}, Intact (r.apply x) → Intact x
  keeps_apply : ∀ {x : ι}, Valid x → ∀ {r : CatalogRequest}, Intact (r.apply x) →
    ∀ {h : UInt32} {b : BlockNum}, Holds x (.block h b) → Holds (r.apply x) (.block h b)
  holds_addReal : ∀ {x : ι}, Valid x → ∀ {h : UInt32} {b : BlockNum},
    Intact (Catalog.addReal x h b) → Holds (Catalog.addReal x h b) (.block h b)
  mem_findReal : ∀ {x : ι}, Valid x → ∀ {h : UInt32} {b : BlockNum},
    Intact (Catalog.findReal x h).2 → Holds x (.block h b) → b ∈ (Catalog.findReal x h).1

/-! ## Requests one after another -/

namespace Catalog

variable {ι : Type} [Catalog ι] {P Q : CatalogEntry → Prop} {x y : ι}

/-- One request leads from the first catalog to the second, and what it puts in satisfies `P`. -/
def Requested (P : CatalogEntry → Prop) (x y : ι) : Prop :=
  ∃ r : CatalogRequest, y = r.apply x ∧ ∀ e, r.entry? = some e → P e

/-- Requests lead from the first catalog to the second, and what they put in satisfies `P`. -/
def Reached (P : CatalogEntry → Prop) : ι → ι → Prop :=
  Relation.ReflTransGen (Requested P)

theorem Reached.mono (hPQ : ∀ e, P e → Q e) (h : Reached P x y) : Reached Q x y := by
  have hle : Requested P ≤ Requested (ι := ι) Q := by
    rintro x y ⟨r, hy, hr⟩
    exact ⟨r, hy, fun e he => hPQ e (hr e he)⟩
  exact Relation.ReflTransGen.mono hle x y h

theorem reached_findReal (h : UInt32) : Reached P x (Catalog.findReal x h).2 :=
  .single ⟨.findReal h, rfl, fun _ he => nomatch he⟩

theorem reached_findWindow (h : UInt32) : Reached P x (Catalog.findWindow x h).2 :=
  .single ⟨.findWindow h, rfl, fun _ he => nomatch he⟩

theorem reached_deleteWindow (h : UInt32) (l : Location) :
    Reached P x (Catalog.deleteWindow x h l) :=
  .single ⟨.deleteWindow h l, rfl, fun _ he => nomatch he⟩

theorem reached_addReal {h : UInt32} {b : BlockNum} (hP : P (.block h b)) :
    Reached P x (Catalog.addReal x h b) :=
  .single ⟨.addReal h b, rfl, fun _ he => Option.some.inj he ▸ hP⟩

theorem reached_addWindow {h : UInt32} {l : Location} (hP : P (.window h l)) :
    Reached P x (Catalog.addWindow x h l) :=
  .single ⟨.addWindow h l, rfl, fun _ he => Option.some.inj he ▸ hP⟩

end Catalog

open Catalog

namespace LossyView

variable {ι : Type} [Catalog ι] (V : LossyView ι) {P : CatalogEntry → Prop} {x y : ι}

theorem valid_reached (hx : V.Valid x) (h : Reached P x y) : V.Valid y := by
  induction h with
  | refl => exact hx
  | tail _ hstep ih =>
    obtain ⟨r, rfl, -⟩ := hstep
    exact V.valid_apply ih r

/-- An entry of the later catalog was put in on the way or was there before. -/
theorem holds_reached (hx : V.Valid x) (h : Reached P x y) {e : CatalogEntry} (he : V.Holds y e) :
    P e ∨ V.Holds x e := by
  induction h with
  | refl => exact .inr he
  | tail hreached hstep ih =>
    obtain ⟨r, rfl, hr⟩ := hstep
    rcases V.holds_apply (V.valid_reached hx hreached) he with hnew | hold
    · exact .inl (hr e hnew)
    · exact ih hold

end LossyView

namespace KeepingView

variable {ι : Type} [Catalog ι] (V : KeepingView ι) {P : CatalogEntry → Prop} {x y : ι}

/-- What is intact now was intact all the way. -/
theorem intact_of_reached (hx : V.Valid x) (h : Reached P x y) (hy : V.Intact y) : V.Intact x := by
  induction h with
  | refl => exact hy
  | tail hreached hstep ih =>
    obtain ⟨r, rfl, -⟩ := hstep
    exact ih (V.intact_of_apply (V.valid_reached hx hreached) hy)

/-- As long as nothing is lost, blocks stay. -/
theorem keeps_reached (hx : V.Valid x) (h : Reached P x y) (hy : V.Intact y) {hash : UInt32}
    {b : BlockNum} (hb : V.Holds x (.block hash b)) : V.Holds y (.block hash b) := by
  induction h with
  | refl => exact hb
  | tail hreached hstep ih =>
    obtain ⟨r, rfl, -⟩ := hstep
    have hvalid := V.valid_reached hx hreached
    exact V.keeps_apply hvalid hy (ih (V.intact_of_apply hvalid hy))

end KeepingView

end DedupImage
