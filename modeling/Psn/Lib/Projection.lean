import Mathlib.Data.List.Perm.Basic
import Mathlib.Data.List.Count
import Psn.Lib.PartialMachine

/-!
# A run seen from one of its parts

A machine may consist of parts that do not look at each other: an action belongs to one part,
changes what can be seen of this part, and leaves what can be seen of the other parts alone. A
run of the whole machine, seen from one part, is then a run of this part alone on the actions
that belong to it, with the same outputs (`run_part`).

Two runs that differ only in how the actions of different parts are interleaved look the same
from every part.

## Main definitions

* `partTrace`: the actions of one part with what was observed of their outputs
* `Reordered`: the same actions, in the same order within each part

## Main results

* `run_part`: a run seen from one part
* `Reordered.perm`: reordered lists are permutations of each other
-/

namespace PartialMachine

variable {σ ν α α' β γ ι : Type*}

/-- The actions that belong to a part, each with what is observed of its output. -/
def partTrace (part : α → Option α') (obs : β → γ) (as : List α) (bs : List β) :
    List (α' × γ) :=
  (as.zip bs).filterMap fun e => (part e.1).map fun a => (a, obs e.2)

section Part

variable {part : α → Option α'} {obs : β → γ}

@[simp] theorem partTrace_nil : partTrace part obs [] [] = [] := rfl

theorem partTrace_cons_of_none {a : α} (h : part a = none) (as : List α) (b : β) (bs : List β) :
    partTrace part obs (a :: as) (b :: bs) = partTrace part obs as bs := by
  simp [partTrace, h]

theorem partTrace_cons_of_some {a : α} {a' : α'} (h : part a = some a') (as : List α) (b : β)
    (bs : List β) :
    partTrace part obs (a :: as) (b :: bs) = (a', obs b) :: partTrace part obs as bs := by
  simp [partTrace, h]

theorem partTrace_append {as cs : List α} {bs ds : List β} (h : as.length = bs.length) :
    partTrace part obs (as ++ cs) (bs ++ ds) =
      partTrace part obs as bs ++ partTrace part obs cs ds := by
  rw [partTrace, List.zip_append h, List.filterMap_append]
  rfl

/-- **A run seen from one part.** If the actions of the part act on the view as `lstep` does, and
the other actions leave the view alone, then a run is, seen from the part, a run of `lstep` on
the actions of the part. -/
theorem run_part {step : σ → α → Option (β × σ)} {lstep : ν → α' → Option (γ × ν)} (view : σ → ν)
    {C : σ → α → Prop}
    (hother : ∀ {s a b t}, C s a → step s a = some (b, t) → part a = none → view t = view s)
    (hpart : ∀ {s a a' b t}, C s a → step s a = some (b, t) → part a = some a' →
      lstep (view s) a' = some (obs b, view t))
    {as : List α} : ∀ {s t bs}, Along step C s as → run step s as = some (bs, t) →
      ∃ cs, run lstep (view s) (as.filterMap part) = some (cs, view t) ∧
        partTrace part obs as bs = (as.filterMap part).zip cs := by
  induction as with
  | nil =>
    intro s t bs _ hrun
    simp only [run_nil, Option.some.injEq, Prod.mk.injEq] at hrun
    obtain ⟨rfl, rfl⟩ := hrun
    exact ⟨[], rfl, rfl⟩
  | cons a as ih =>
    intro s t bs hC hrun
    obtain ⟨b, u, bs, hu, hrest, rfl⟩ := run_cons_eq_some.mp hrun
    obtain ⟨cs, hcs, htrace⟩ := ih (hC.2 b u hu) hrest
    cases ha : part a with
    | none =>
      rw [List.filterMap_cons_none ha, partTrace_cons_of_none ha, ← hother hC.1 hu ha]
      exact ⟨cs, hcs, htrace⟩
    | some a' =>
      rw [List.filterMap_cons_some ha, partTrace_cons_of_some ha]
      refine ⟨obs b :: cs, ?_, ?_⟩
      · rw [run_cons_of_step (hpart hC.1 hu ha), hcs, Option.map_some]
      · rw [List.zip_cons_cons, htrace]

end Part

/-! ### Other interleavings of the same parts -/

/-- The same actions, in the same order within each part. -/
def Reordered [DecidableEq ι] (part : α → ι) (as as' : List α) : Prop :=
  ∀ i, as.filter (fun a => part a = i) = as'.filter (fun a => part a = i)

variable [DecidableEq ι] {part : α → ι} {as as' : List α}

/-- Neighbours that belong to different parts can be swapped. -/
theorem Reordered.swap {a b : α} (h : part a ≠ part b) (pre post : List α) :
    Reordered part (pre ++ a :: b :: post) (pre ++ b :: a :: post) := by
  intro i
  simp only [List.filter_append, List.filter_cons]
  by_cases ha : part a = i
  · have hb : part b ≠ i := fun hb => h (ha.trans hb.symm)
    simp [ha, hb]
  · simp [ha]

/-- Every action occurs as often as before. -/
theorem Reordered.perm [DecidableEq α] (h : Reordered part as as') : as.Perm as' := by
  refine List.perm_iff_count.mpr fun a => ?_
  have hcount : ∀ bs : List α, (bs.filter fun b => part b = part a).count a = bs.count a :=
    fun bs => List.count_filter (by simp)
  rw [← hcount as, ← hcount as', h (part a)]

end PartialMachine
