import Mathlib.Data.Fintype.Card
import Mathlib.Data.Fintype.EquivFin
import Mathlib.Data.List.Chain
import Mathlib.Logic.Relation
import Mathlib.Order.WellFounded

/-!
# Acyclic relations

`r a b` says that `a` lies directly below `b`.

* `Acyclic`, `Acyclic.of_rank`, **`Acyclic.wellFounded`**: nothing is below itself, which is an
  induction principle on a finite type;
* `Ascent`, `Acyclic.nodup`, **`Acyclic.length_le`**: a path upwards does not come back, and is no
  longer than there are elements.
-/

variable {α : Type*} {r : α → α → Prop}

/-- Nothing is below itself. -/
def Acyclic (r : α → α → Prop) : Prop := ∀ a, ¬ Relation.TransGen r a a

/-- Every element of the list is directly below the next one. -/
abbrev Ascent (r : α → α → Prop) (l : List α) : Prop := l.IsChain r

theorem Ascent.cons {a b : α} {l : List α} (h : Ascent r (b :: l)) (hab : r a b) :
    Ascent r (a :: b :: l) :=
  .cons_cons hab h

namespace Acyclic

/-- A relation that goes up in rank is acyclic. -/
theorem of_rank (rank : α → ℕ) (h : ∀ a b, r a b → rank a < rank b) : Acyclic r := by
  have hlt : ∀ a b, Relation.TransGen r a b → rank a < rank b := by
    intro a b hab
    induction hab with
    | single hab => exact h _ _ hab
    | tail _ hbc ih => exact ih.trans (h _ _ hbc)
  exact fun a ha => lt_irrefl _ (hlt a a ha)

/-- **On a finite type an acyclic relation is well founded.** -/
theorem wellFounded [Finite α] (h : Acyclic r) : WellFounded r := by
  have : Std.Irrefl (Relation.TransGen r) := ⟨h⟩
  have hwf : WellFounded (Relation.TransGen r) := Finite.wellFounded_of_trans_of_irrefl _
  exact Subrelation.wf Relation.TransGen.single hwf

/-- A path does not come back. -/
theorem nodup (h : Acyclic r) {l : List α} (hl : Ascent r l) : l.Nodup := by
  have htrans : l.IsChain (Relation.TransGen r) := hl.imp fun _ _ => .single
  have hpair : l.Pairwise (Relation.TransGen r) := List.isChain_iff_pairwise.mp htrans
  refine hpair.imp fun {a b} hab he => ?_
  subst he
  exact h _ hab

/-- **A path has no more elements than there are.** -/
theorem length_le [Fintype α] (h : Acyclic r) {l : List α} (hl : Ascent r l) :
    l.length ≤ Fintype.card α :=
  (h.nodup hl).length_le_card

end Acyclic
