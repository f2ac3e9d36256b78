import PredictiveGrammar.Proofs.FreshNames
import PredictiveGrammar.Proofs.Replacement
import PredictiveGrammar.Transform.LeftRecursion

/-!
# What stands in the place of a left-recursive rule

A rule without recursion stays. A recursive one gives way to its entry and its loop, for some fresh name
(`Unrolled`, `unrollRules_replaced`). The name itself plays no part: what follows holds for whatever fresh
name is chosen.
-/

namespace PredictiveGrammar

/-- What stands in the place of a rule after unrolling. -/
inductive Unrolled : LocalReplacement
  /-- a rule without recursion stays -/
  | keep {rule : Rule} : rule.loops = [] → Unrolled rule rule []
  /-- a recursive rule gives way to its entry and its loop -/
  | unroll {rule : Rule} (name : String) :
      rule.loops ≠ [] → Unrolled rule (rule.entry name) [rule.loop name]

/-- **Unrolling replaces rules in place** and captures no name. -/
theorem unrollRules_replaced (used : List String) (rules : List Rule) :
    Replaced Unrolled used rules (unrollRules used rules) := by
  induction rules generalizing used with
  | nil => exact .nil used
  | cons rule rules ih =>
    by_cases hloops : rule.loops = []
    -- a rule without loops stays as it is
    · have heq : unrollRules used (rule :: rules) = rule :: [] ++ unrollRules used rules := by
        rw [unrollRules, hloops]
        rfl
      have hnone : ∀ name ∈ ([] : List Rule).map Rule.left, name ∉ used :=
        fun _ hname => absurd hname List.not_mem_nil
      rw [heq]
      exact .cons (Unrolled.keep hloops) rfl List.nodup_nil hnone (ih used)
    -- a rule with loops is replaced by its entry and the rule of the fresh name
    · have hfresh := freshName_notMem used (rule.left ++ "'")
      have heq : unrollRules used (rule :: rules) =
          rule.entry (freshName used (rule.left ++ "'")) ::
            [rule.loop (freshName used (rule.left ++ "'"))] ++
              unrollRules (freshName used (rule.left ++ "'") :: used) rules := by
        rw [unrollRules, if_neg (by simpa using hloops)]
        rfl
      rw [heq]
      refine .cons (Unrolled.unroll _ hloops) rfl (List.nodup_singleton _) ?_ (ih _)
      intro name hname
      obtain rfl := List.mem_singleton.mp hname
      exact hfresh

/-- Unrolling leaves no alternative without symbols. -/
theorem Unrolled.inhabited {rule entry : Rule} {fresh : List Rule} (h : Unrolled rule entry fresh)
    (hrule : ∀ right ∈ rule.rights, right ≠ []) :
    ∀ new ∈ entry :: fresh, ∀ right ∈ new.rights, right ≠ [] := by
  cases h with
  | keep =>
    intro new hnew
    obtain rfl := List.mem_singleton.mp hnew
    exact hrule
  | unroll name =>
    intro new hnew right hright
    rcases List.mem_pair.mp hnew with rfl | rfl
    · simp only [Rule.entry] at hright
      split at hright
      · obtain rfl := List.mem_singleton.mp hright
        exact List.cons_ne_nil _ _
      · obtain ⟨base, -, rfl⟩ := List.mem_map.mp hright
        exact List.append_ne_nil_of_right_ne_nil base (List.cons_ne_nil _ _)
    · simp only [Rule.loop, List.mem_append, List.mem_map, List.mem_singleton] at hright
      rcases hright with ⟨loop, -, rfl⟩ | rfl
      · exact List.append_ne_nil_of_right_ne_nil loop (List.cons_ne_nil _ _)
      · exact List.cons_ne_nil _ _

end PredictiveGrammar
