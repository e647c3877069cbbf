import Mathlib.Logic.Relation
import Mathlib.Order.RelClasses
import Mathlib.Data.Finite.Prod
import Mathlib.Data.Fintype.EquivFin
import Mathlib.Data.Fintype.Powerset

/-!
# Cycles

Along a relation on finitely many things every path comes to an end exactly if none of the things that can
be reached lies on a cycle.
-/

namespace Assure.Library

open Relation

variable {α : Type*} {r : α → α → Prop} {a b : α}

/-- What can be reached from a place without endless paths has none either. -/
theorem acc_of_reach (h : Acc (fun y x => r x y) a) (hb : ReflTransGen r a b) :
    Acc (fun y x => r x y) b := by
  induction hb with
  | refl => exact h
  | tail _ hbc ih => exact ih.inv hbc

/-- There are endless paths along a cycle. -/
theorem not_cycle_of_acc (h : Acc (fun y x => r x y) a) : ¬ TransGen r a a := by
  induction h with
  | intro a _ ih =>
    intro hcycle
    obtain ⟨b, hab, hba⟩ := TransGen.head'_iff.mp hcycle
    exact ih b hab (TransGen.tail'_iff.mpr ⟨a, hba, hab⟩)

/-- **Paths end exactly if there are no cycles.** -/
theorem acc_iff_acyclic [Finite α] :
    Acc (fun y x => r x y) a ↔ ∀ b, ReflTransGen r a b → ¬ TransGen r b b := by
  constructor
  · exact fun h b hb => not_cycle_of_acc (acc_of_reach h hb)
  · intro h
    let follows : {b // ReflTransGen r a b} → {b // ReflTransGen r a b} → Prop :=
      fun c b => TransGen r b.1 c.1
    have : IsTrans _ follows := ⟨fun _ _ _ hcb hba => hba.trans hcb⟩
    have : Std.Irrefl follows := ⟨fun b => h b.1 b.2⟩
    have hwf : WellFounded follows := Finite.wellFounded_of_trans_of_irrefl follows
    have hacc : ∀ b : {b // ReflTransGen r a b}, Acc (fun y x => r x y) b.1 := by
      intro b
      induction b using hwf.induction with
      | h b ih => exact .intro _ fun c hbc => ih ⟨c, b.2.tail hbc⟩ (.single hbc)
    exact hacc ⟨a, .refl⟩

end Assure.Library
