import Mathlib.Logic.Relation

/-!
# Chains of a relation

`r a b` reads "`a` points to `b`". When every chain of pointers ends, it still does
after pointers are removed, and after one pointer `l` to `t` is added if the chains
from `t` do not arrive at `l`.

## Main results

* `Terminates.mono` — fewer pointers have shorter chains
* `Terminates.add` — a new pointer that closes no cycle
-/

namespace TfsBroker.Chains

open Relation

variable {α : Type*} {r r' : α → α → Prop} {a l t : α}

/-- Every chain of pointers ends. -/
def Terminates (r : α → α → Prop) : Prop := WellFounded fun b a => r a b

theorem Terminates.mono (h : Terminates r) (hle : ∀ a b, r' a b → r a b) : Terminates r' :=
  Subrelation.wf (fun {b a} => hle a b) h

/-- Where no pointer leads back to `l`, the new pointer of `l` plays no part. -/
private theorem acc_of_apart (h : Terminates r)
    (hstep : ∀ a b, r' a b → r a b ∨ a = l ∧ b = t) (hcycle : ¬ ReflTransGen r t l) (a : α)
    (ha : ReflTransGen r t a) : Acc (fun b a => r' a b) a := by
  induction a using h.induction with
  | _ a ih =>
    refine ⟨a, fun b hab => ?_⟩
    rcases hstep a b hab with hold | ⟨rfl, -⟩
    · exact ih b hold (ha.tail hold)
    · exact absurd ha hcycle

/-- A new pointer from `l` to `t` keeps chains finite if no chain leads from `t` to
`l`. -/
theorem Terminates.add (h : Terminates r) (hstep : ∀ a b, r' a b → r a b ∨ a = l ∧ b = t)
    (hcycle : ¬ ReflTransGen r t l) : Terminates r' := by
  refine ⟨fun a => ?_⟩
  induction a using h.induction with
  | _ a ih =>
    refine ⟨a, fun b hab => ?_⟩
    rcases hstep a b hab with hold | ⟨-, rfl⟩
    · exact ih b hold
    · exact acc_of_apart h hstep hcycle b .refl

end TfsBroker.Chains
