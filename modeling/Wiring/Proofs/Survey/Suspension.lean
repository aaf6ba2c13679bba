import Wiring.Proofs.Survey.Run
import Wiring.Survey.Suspension

/-!
# What the surveys of suspension judge

One lemma for each survey lists everything that its judgement of a provider can do; nothing later
unfolds a judgement.
-/

namespace Wiring.Survey

/-- The judgement of whether a value suspends: an asynchronous delegate is passed over, any other
asynchronous provider settles the question, and everything else is gone into. -/
theorem suspension_judge {maxDepth : Nat} {trigger : Trigger} {p : Provider}
    {found goOn after : Bool}
    (h : (suspension maxDepth trigger).judge p found = .ok (goOn, after)) :
    (p.isDelegate = true ∧ p.isAsync = true ∧ goOn = false ∧ after = found) ∨
      (p.isDelegate = false ∧ p.isAsync = true ∧ goOn = false ∧ after = true) ∨
      (p.isAsync = false ∧ goOn = true ∧ after = found) := by
  simp only [suspension] at h
  cases hdelegate : p.isDelegate <;> cases hasync : p.isAsync <;> simp_all

/-- The judgement that collects suspending singletons: an asynchronous delegate is passed over, a
singleton is asked whether it suspends, and everything else is gone into. -/
theorem suspendingSingletons_judge {maxDepth : Nat} {trigger : Trigger} {container : Environment}
    {p : Provider} {found after : List Provider} {answers answers' : Answers} {goOn : Bool}
    (h : (suspendingSingletons maxDepth trigger container).judge p (found, answers) =
      .ok (goOn, after, answers')) :
    ((p.isDelegate = true ∧ p.isAsync = true) ∧ goOn = false ∧ after = found ∧ answers' = answers) ∨
      (p.lifetime = .single ∧ goOn = false ∧
        ∃ answer, suspendsWith maxDepth trigger container p answers = .ok (answer, answers') ∧
          after = if answer && !found.any p.same then found ++ [p] else found) ∨
      (¬ (p.isDelegate = true ∧ p.isAsync = true) ∧ p.lifetime ≠ .single ∧ goOn = true ∧
        after = found ∧ answers' = answers) := by
  simp only [suspendingSingletons] at h
  by_cases hdelegate : (p.isDelegate && p.isAsync) = true
  · rw [if_pos hdelegate] at h
    cases h
    exact .inl ⟨Bool.and_eq_true_iff.mp hdelegate, rfl, rfl, rfl⟩
  rw [if_neg hdelegate] at h
  rw [Bool.and_eq_true] at hdelegate
  by_cases hsingle : p.lifetime = .single
  · rw [if_pos hsingle] at h
    cases hanswer : suspendsWith maxDepth trigger container p answers with
    | error e =>
        rw [hanswer] at h
        cases h
    | ok found' =>
        rw [hanswer] at h
        cases h
        exact .inr (.inl ⟨hsingle, rfl, _, rfl, rfl⟩)
  · rw [if_neg hsingle] at h
    cases h
    exact .inr (.inr ⟨hdelegate, hsingle, rfl, rfl, rfl⟩)

/-- Only a singleton that was asked and suspends is found. -/
theorem mem_of_suspendingSingletons_judge {maxDepth : Nat} {trigger : Trigger}
    {container : Environment} {p q : Provider} {found after : List Provider}
    {answers answers' : Answers} {goOn : Bool}
    (h : (suspendingSingletons maxDepth trigger container).judge p (found, answers) =
      .ok (goOn, after, answers')) (hq : q ∈ after) :
    q ∈ found ∨ q = p ∧ p.lifetime = .single ∧
      suspendsWith maxDepth trigger container p answers = .ok (true, answers') := by
  rcases suspendingSingletons_judge h with ⟨-, -, rfl, -⟩ | ⟨hsingle, -, answer, hanswer, rfl⟩ |
    ⟨-, -, -, rfl, -⟩
  · exact .inl hq
  · split at hq
    · rename_i hnew
      obtain ⟨rfl, -⟩ := Bool.and_eq_true_iff.mp hnew
      rcases List.mem_append.mp hq with hq | hq
      · exact .inl hq
      · exact .inr ⟨List.mem_singleton.mp hq, hsingle, hanswer⟩
    · exact .inl hq
  · exact .inl hq

/-- The survey goes on only below what is neither a singleton nor an asynchronous delegate. -/
theorem goesOn_of_suspendingSingletons_judge {maxDepth : Nat} {trigger : Trigger}
    {container : Environment} {p : Provider} {found : List Provider × Answers}
    {after : List Provider × Answers}
    (h : (suspendingSingletons maxDepth trigger container).judge p found = .ok (true, after)) :
    ¬ (p.isDelegate = true ∧ p.isAsync = true) ∧ p.lifetime ≠ .single := by
  rcases suspendingSingletons_judge h with ⟨-, hgoOn, -⟩ | ⟨-, hgoOn, -⟩ | ⟨hfollowed, hnot, -⟩
  · cases hgoOn
  · cases hgoOn
  · exact ⟨hfollowed, hnot⟩

end Wiring.Survey
