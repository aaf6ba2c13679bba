import Mathlib.Data.List.Forall2

/-!
# Successful runs of programs over a state

The walks and the assembly are programs over a state that may fail. A successful run of a composed
program falls apart into successful runs of its parts.

* `bind_ok`, `map_ok`, `except_bind_ok` — for programs in sequence.
* `mapM_ok`, `forM_ok` — for a program run on each element of a list.
* `Each.unique`, `Each.ok_at` — such a run ends in one state, and reaches each element.
* `bind_congr_of_ok`, `mapM_congr`, `forM_congr` — programs made of equal parts are equal.
* `Keeps` — a program keeps what holds of the state, whether it succeeds or fails.
* `Follows` — one program succeeds where another does, with a related answer.
-/

namespace Wiring.Run

variable {ε σ α β : Type}

/-- A sequence succeeds exactly when its first part does and then its second. -/
theorem bind_ok {m : EStateM ε σ α} {f : α → EStateM ε σ β} {s s' : σ} {b : β} :
    (m >>= f) s = .ok b s' ↔ ∃ a t, m s = .ok a t ∧ f a t = .ok b s' := by
  change EStateM.bind m f s = .ok b s' ↔ _
  unfold EStateM.bind
  cases m s with
  | error e t => simp
  | ok a t =>
      constructor
      · intro h
        exact ⟨a, t, rfl, h⟩
      · rintro ⟨_, _, heq, h⟩
        cases heq
        exact h

/-- After a success the rest of a sequence runs on from there. -/
theorem bind_of_ok {m : EStateM ε σ α} {f : α → EStateM ε σ β} {s t : σ} {a : α}
    (h : m s = .ok a t) : (m >>= f) s = f a t := by
  change EStateM.bind m f s = f a t
  rw [EStateM.bind, h]

/-- After a failure nothing else runs. -/
theorem bind_of_error {m : EStateM ε σ α} {f : α → EStateM ε σ β} {s t : σ} {e : ε}
    (h : m s = .error e t) : (m >>= f) s = .error e t := by
  change EStateM.bind m f s = .error e t
  rw [EStateM.bind, h]

theorem pure_ok {a b : α} {s s' : σ} :
    (pure a : EStateM ε σ α) s = .ok b s' ↔ a = b ∧ s = s' := by
  change EStateM.Result.ok a s = .ok b s' ↔ _
  simp

theorem throw_ok {e : ε} {a : α} {s s' : σ} :
    ¬ (throw e : EStateM ε σ α) s = .ok a s' := by
  change ¬ EStateM.Result.error e s = .ok a s'
  simp

theorem get_bind {f : σ → EStateM ε σ α} (s : σ) : (get >>= f) s = f s s := rfl

theorem map_ok {m : EStateM ε σ α} {f : α → β} {s s' : σ} {b : β} :
    (f <$> m) s = .ok b s' ↔ ∃ a, m s = .ok a s' ∧ f a = b := by
  rw [← bind_pure_comp]
  simp only [bind_ok, pure_ok]
  constructor
  · rintro ⟨a, t, h, rfl, rfl⟩
    exact ⟨a, h, rfl⟩
  · rintro ⟨a, h, rfl⟩
    exact ⟨a, s', h, rfl, rfl⟩

theorem except_bind_ok {x : Except ε α} {f : α → Except ε β} {b : β} :
    (x >>= f) = .ok b ↔ ∃ a, x = .ok a ∧ f a = .ok b := by
  cases x with
  | error e => simp [bind, Except.bind]
  | ok a => simp [bind, Except.bind]

/-- What a successful run over a list answers with comes from its elements. -/
theorem except_mapM_ok {f : α → Except ε β} {l : List α} {bs : List β} (h : l.mapM f = .ok bs) :
    ∀ b ∈ bs, ∃ a ∈ l, f a = .ok b := by
  induction l generalizing bs with
  | nil =>
      rw [List.mapM_nil] at h
      cases h
      exact fun b hb => by cases hb
  | cons a l ih =>
      rw [List.mapM_cons] at h
      obtain ⟨first, hfirst, h₁⟩ := except_bind_ok.mp h
      obtain ⟨rest, hrest, h₂⟩ := except_bind_ok.mp h₁
      cases h₂
      intro b hb
      rcases List.mem_cons.mp hb with rfl | hb
      · exact ⟨a, List.mem_cons_self, hfirst⟩
      · obtain ⟨a', ha', hb⟩ := ih hrest b hb
        exact ⟨a', List.mem_cons_of_mem _ ha', hb⟩

theorem ok_of_toOption {result : Except ε α} {a : α} (h : result.toOption = some a) :
    result = .ok a := by
  cases result with
  | ok b => cases h; rfl
  | error e => cases h

/-- The runs of a list of parts, one after the other. -/
inductive Each (R : α → σ → β → σ → Prop) : List α → σ → List β → σ → Prop
  | nil {s : σ} : Each R [] s [] s
  | cons {a : α} {b : β} {l : List α} {bs : List β} {s t u : σ} (head : R a s b t)
      (tail : Each R l t bs u) : Each R (a :: l) s (b :: bs) u

theorem mapM_ok {f : α → EStateM ε σ β} {l : List α} {s s' : σ} {bs : List β}
    (h : l.mapM f s = .ok bs s') : Each (fun a s b t => f a s = .ok b t) l s bs s' := by
  induction l generalizing s bs with
  | nil =>
      rw [List.mapM_nil] at h
      obtain ⟨rfl, rfl⟩ := pure_ok.mp h
      exact .nil
  | cons a l ih =>
      rw [List.mapM_cons, bind_ok] at h
      obtain ⟨b, t, hb, h⟩ := h
      obtain ⟨bs', u, hbs, h⟩ := bind_ok.mp h
      obtain ⟨rfl, rfl⟩ := pure_ok.mp h
      exact .cons hb (ih hbs)

/-- A program run on the elements of a list ends in one state. -/
theorem Each.unique {f : α → EStateM ε σ β} {l : List α} {s t t' : σ} {bs bs' : List β}
    (h : Each (fun a s b t => f a s = .ok b t) l s bs t)
    (h' : Each (fun a s b t => f a s = .ok b t) l s bs' t') : t = t' := by
  induction h generalizing bs' with
  | nil =>
      cases h'
      rfl
  | cons head _ ih =>
      cases h' with
      | cons head' tail' =>
          cases head.symm.trans head'
          exact ih tail'

/-- Where a program ran on a whole list, it ran on each element after the ones before it. -/
theorem Each.ok_at {f : α → EStateM ε σ β} {before after : List α} {a : α} {s t t' : σ}
    {bs bs' : List β} (h : Each (fun a s b t => f a s = .ok b t) (before ++ a :: after) s bs t)
    (h' : Each (fun a s b t => f a s = .ok b t) before s bs' t') : ∃ b u, f a t' = .ok b u := by
  induction h' generalizing bs with
  | nil =>
      cases h with
      | cons head _ => exact ⟨_, _, head⟩
  | cons head' _ ih =>
      cases h with
      | cons head tail =>
          cases head'.symm.trans head
          exact ih tail

/-- The runs of a list of parts without answers. -/
inductive EachOf (R : α → σ → σ → Prop) : List α → σ → σ → Prop
  | nil {s : σ} : EachOf R [] s s
  | cons {a : α} {l : List α} {s t u : σ} (head : R a s t) (tail : EachOf R l t u) :
      EachOf R (a :: l) s u

theorem forM_ok {f : α → EStateM ε σ Unit} {l : List α} {s s' : σ}
    (h : l.forM f s = .ok () s') : EachOf (fun a s t => f a s = .ok () t) l s s' := by
  induction l generalizing s with
  | nil =>
      obtain ⟨-, rfl⟩ := pure_ok.mp h
      exact .nil
  | cons a l ih =>
      obtain ⟨_, t, ha, h⟩ := bind_ok.mp (show (f a >>= fun _ => l.forM f) s = .ok () s' from h)
      exact .cons ha (ih h)

/-! ### Programs with equal parts -/

/-- Programs in sequence are the same if the second ones are, for every answer of the first. -/
theorem bind_congr_of_ok {m : EStateM ε σ α} {f g : α → EStateM ε σ β}
    (h : ∀ s a t, m s = .ok a t → f a = g a) : m >>= f = m >>= g := by
  funext s
  change EStateM.bind m f s = EStateM.bind m g s
  unfold EStateM.bind
  cases hm : m s with
  | error e t => rfl
  | ok a t => exact congrFun (h s a t hm) t

theorem mapM_congr {f g : α → EStateM ε σ β} {l : List α} (h : ∀ a ∈ l, f a = g a) :
    l.mapM f = l.mapM g := by
  induction l with
  | nil => rw [List.mapM_nil, List.mapM_nil]
  | cons a l ih =>
      rw [List.mapM_cons, List.mapM_cons, h a List.mem_cons_self,
        ih fun b hb => h b (List.mem_cons_of_mem _ hb)]

theorem forM_congr {f g : α → EStateM ε σ Unit} {l : List α} (h : ∀ a ∈ l, f a = g a) :
    l.forM f = l.forM g := by
  induction l with
  | nil => rfl
  | cons a l ih =>
      change (f a >>= fun _ => l.forM f) = (g a >>= fun _ => l.forM g)
      rw [h a List.mem_cons_self, ih fun b hb => h b (List.mem_cons_of_mem _ hb)]

/-! ### Programs that keep an invariant -/

/-- What holds of the state before a run holds after it, whether the program succeeds or fails. -/
def Keeps (I : σ → Prop) (m : EStateM ε σ α) : Prop :=
  ∀ s, I s → match m s with
    | .ok _ t | .error _ t => I t

namespace Keeps

variable {I : σ → Prop} {m : EStateM ε σ α} {f : α → EStateM ε σ β}

theorem pure {a : α} : Keeps I (Pure.pure a : EStateM ε σ α) := fun _ hs => hs

theorem throw {e : ε} : Keeps I (MonadExcept.throw e : EStateM ε σ α) := fun _ hs => hs

theorem bind (hm : Keeps I m) (hf : ∀ s a t, m s = .ok a t → Keeps I (f a)) : Keeps I (m >>= f) := by
  intro s hs
  have hm := hm s hs
  change match EStateM.bind m f s with
    | .ok _ t | .error _ t => I t
  unfold EStateM.bind
  cases hrun : m s with
  | error e t =>
      rw [hrun] at hm
      exact hm
  | ok a t =>
      rw [hrun] at hm
      exact hf s a t hrun t hm

theorem get_bind {f : σ → EStateM ε σ β} (hf : ∀ s, Keeps I (f s)) : Keeps I (get >>= f) :=
  fun s hs => hf s s hs

theorem forM {f : β → EStateM ε σ Unit} {l : List β} (hf : ∀ b ∈ l, Keeps I (f b)) :
    Keeps I (l.forM f) := by
  induction l with
  | nil => exact pure
  | cons b l ih =>
      change Keeps I (f b >>= fun _ => l.forM f)
      exact (hf b List.mem_cons_self).bind fun _ _ _ _ =>
        ih fun b hb => hf b (List.mem_cons_of_mem _ hb)

end Keeps

/-! ### Programs that succeed alike -/

variable {R : α → α → Prop} {S : σ → σ → Prop}

/-- Where the first program succeeds from the first state, the second does from the second state, and
answers and states correspond. -/
def Follows (R : α → α → Prop) (S : σ → σ → Prop) (m m' : EStateM ε σ α) (s s' : σ) : Prop :=
  ∀ a t, m s = .ok a t → ∃ a' t', m' s' = .ok a' t' ∧ R a a' ∧ S t t'

namespace Follows

variable {m m' : EStateM ε σ α} {s s' t t' : σ} {a a' : α}

theorem of_ok (h : m s = .ok a t) (h' : m' s' = .ok a' t') (hR : R a a') (hS : S t t') :
    Follows R S m m' s s' := by
  intro b u hrun
  cases h.symm.trans hrun
  exact ⟨a', t', h', hR, hS⟩

theorem pure (hR : R a a') (hS : S s s') :
    Follows R S (Pure.pure a : EStateM ε σ α) (Pure.pure a') s s' :=
  of_ok rfl rfl hR hS

theorem throw {e : ε} : Follows R S (MonadExcept.throw e : EStateM ε σ α) m' s s' :=
  fun _ _ h => absurd h throw_ok

theorem bind {f f' : α → EStateM ε σ β} {R' : β → β → Prop} {S' : σ → σ → Prop}
    (hm : Follows R S m m' s s')
    (hf : ∀ a t a' t', m s = .ok a t → m' s' = .ok a' t' → R a a' → S t t' →
      Follows R' S' (f a) (f' a') t t') :
    Follows R' S' (m >>= f) (m' >>= f') s s' := by
  intro b u hrun
  obtain ⟨a, t, ha, hb⟩ := bind_ok.mp hrun
  obtain ⟨a', t', ha', hR, hS⟩ := hm a t ha
  obtain ⟨b', u', hb', hR', hS'⟩ := hf a t a' t' ha ha' hR hS b u hb
  exact ⟨b', u', bind_ok.mpr ⟨a', t', ha', hb'⟩, hR', hS'⟩

theorem map {R' : β → β → Prop} (hm : Follows R S m m' s s') (f : α → β)
    (hf : ∀ a a', R a a' → R' (f a) (f a')) : Follows R' S (f <$> m) (f <$> m') s s' := by
  rw [← bind_pure_comp, ← bind_pure_comp]
  exact hm.bind fun a _ a' _ _ _ hR hS => .pure (hf a a' hR) hS

theorem get_bind {f f' : σ → EStateM ε σ α} (h : Follows R S (f s) (f' s') s s') :
    Follows R S (get >>= f) (get >>= f') s s' :=
  h

/-- What the second program keeps to can be added. -/
theorem and {P : σ → Prop} (hm : Follows R S m m' s s') (hP : ∀ a' t', m' s' = .ok a' t' → P t') :
    Follows R (fun t t' => S t t' ∧ P t') m m' s s' := by
  intro a t ha
  obtain ⟨a', t', ha', hR, hS⟩ := hm a t ha
  exact ⟨a', t', ha', hR, hS, hP a' t' ha'⟩

/-- Programs run on each element of a list. -/
theorem mapM {f f' : β → EStateM ε σ α} {l : List β}
    (hf : ∀ b ∈ l, ∀ s s', S s s' → Follows R S (f b) (f' b) s s') (hS : S s s') :
    Follows (List.Forall₂ R) S (l.mapM f) (l.mapM f') s s' := by
  induction l generalizing s s' with
  | nil =>
      rw [List.mapM_nil, List.mapM_nil]
      exact .pure .nil hS
  | cons b l ih =>
      rw [List.mapM_cons, List.mapM_cons]
      refine (hf b List.mem_cons_self s s' hS).bind fun a t a' t' _ _ hhead hS => ?_
      refine (ih (fun b hb => hf b (List.mem_cons_of_mem _ hb)) hS).bind ?_
      exact fun _ _ _ _ _ _ htail hS => .pure (.cons hhead htail) hS

end Follows

end Wiring.Run
