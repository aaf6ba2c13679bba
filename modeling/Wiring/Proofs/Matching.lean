import Wiring.Ty.Unify

/-!
# Matching templates is sound

Where a template matches a type, the bindings turn the template into the type. A later binding never
replaces an earlier one, so what was matched once stays matched.

* `Bindings.Extends` — further bindings.
* `Ty.unify_sound` — a match extends the bindings, and any further extension fits.
* `Ty.substitute_of_match?` — the bindings of a match turn the template into the type.
-/

namespace Wiring

namespace Bindings

/-- Everything bound is still bound to the same type. -/
def Extends (bindings further : Bindings) : Prop :=
  ∀ name ty, bindings.get? name = some ty → further.get? name = some ty

theorem Extends.refl (bindings : Bindings) : bindings.Extends bindings := fun _ _ h => h

theorem Extends.trans {a b c : Bindings} (hab : a.Extends b) (hbc : b.Extends c) : a.Extends c :=
  fun name ty h => hbc name ty (hab name ty h)

theorem get?_cons (entry : String × Ty) (rest : Bindings) (name : String) :
    Bindings.get? (entry :: rest) name = if entry.1 = name then some entry.2 else rest.get? name := by
  by_cases h : entry.1 = name <;> simp [get?, h]

theorem get?_insert_self (name : String) (ty : Ty) (bindings : Bindings) :
    (insert name ty bindings).get? name = some ty := by
  induction bindings with
  | nil => simp [insert, get?_cons]
  | cons entry rest ih =>
      unfold insert
      split
      · simp [get?_cons]
      · split
        · simp [get?_cons]
        · rename_i hne
          rw [get?_cons, if_neg (Ne.symm hne), ih]

theorem get?_insert_of_ne {name other : String} (hne : name ≠ other) (ty : Ty) (bindings : Bindings) :
    (insert name ty bindings).get? other = bindings.get? other := by
  induction bindings with
  | nil => simp [insert, get?_cons, hne]
  | cons entry rest ih =>
      unfold insert
      split
      · rw [get?_cons, if_neg hne]
      · split
        · rename_i heq
          rw [get?_cons, get?_cons, if_neg hne, if_neg (heq ▸ hne)]
        · rw [get?_cons, get?_cons, ih]

theorem Extends.insert {name : String} {ty : Ty} {bindings : Bindings}
    (h : bindings.get? name = none) : bindings.Extends (insert name ty bindings) := by
  intro other bound hbound
  have hne : name ≠ other := by
    rintro rfl
    rw [h] at hbound
    cases hbound
  rw [get?_insert_of_ne hne, hbound]

end Bindings

namespace Ty

mutual

/-- A match extends the bindings, and under these, or further ones, the pattern becomes the type.
Further bindings matter in a type with several parts, where the later ones add to what the earlier ones
bind. -/
theorem unify_sound {p c : Ty} {b b' : Bindings} (h : unify p c b = (true, b')) :
    b.Extends b' ∧ ∀ further, b'.Extends further → p.substitute further = c := by
  -- By the pattern. Bindings that extend those found last extend all found on the way, so each part
  -- becomes its counterpart under them.
  cases p with
  | param name =>
      cases hbound : b.get? name with
      | none =>
          simp only [unify, hbound, Prod.mk.injEq, true_and] at h
          subst h
          refine ⟨.insert hbound, fun further hfurther => ?_⟩
          rw [substitute, hfurther name c (b.get?_insert_self name c), Option.getD_some]
      | some bound =>
          simp only [unify, hbound, Prod.mk.injEq, beq_iff_eq] at h
          obtain ⟨rfl, rfl⟩ := h
          refine ⟨.refl b, fun further hfurther => ?_⟩
          rw [substitute, hfurther name bound hbound, Option.getD_some]
  | named n ps =>
      cases c with
      | named m cs =>
          rw [unify] at h
          split at h
          · rename_i hhead
            obtain ⟨hextends, hargs⟩ := unifyAll_sound h
            refine ⟨hextends, fun further hfurther => ?_⟩
            rw [substitute, hargs further hfurther, hhead.1]
          · simp at h
      | _ => simp [unify] at h
  | array p =>
      cases c with
      | array c =>
          rw [unify] at h
          obtain ⟨hextends, helement⟩ := unify_sound h
          refine ⟨hextends, fun further hfurther => ?_⟩
          rw [substitute, helement further hfurther]
      | _ => simp [unify] at h
  | pointer p =>
      cases c with
      | pointer c =>
          rw [unify] at h
          obtain ⟨hextends, helement⟩ := unify_sound h
          refine ⟨hextends, fun further hfurther => ?_⟩
          rw [substitute, helement further hfurther]
      | _ => simp [unify] at h
  | functionPointer ps p =>
      cases c with
      | functionPointer cs c =>
          rw [unify] at h
          split at h
          · split at h
            · rename_i hall
              obtain ⟨hextends, hparams⟩ := unifyAll_sound hall
              obtain ⟨hextends', hresult⟩ := unify_sound h
              refine ⟨hextends.trans hextends', fun further hfurther => ?_⟩
              rw [substitute, hparams further (hextends'.trans hfurther), hresult further hfurther]
            · simp at h
          · simp at h
      | _ => simp [unify] at h
  | delegate ps p x =>
      cases c with
      | delegate cs c y =>
          rw [unify] at h
          split at h
          · rename_i hhead
            split at h
            · rename_i hall
              obtain ⟨hextends, hparams⟩ := unifyAll_sound hall
              obtain ⟨hextends', hresult⟩ := unify_sound h
              refine ⟨hextends.trans hextends', fun further hfurther => ?_⟩
              rw [substitute, hparams further (hextends'.trans hfurther), hresult further hfurther,
                hhead.1]
            · simp at h
          · simp at h
      | _ => simp [unify] at h
  | owned p x =>
      cases c with
      | owned c y =>
          rw [unify] at h
          split at h
          · rename_i hhead
            obtain ⟨hextends, hvalue⟩ := unify_sound h
            refine ⟨hextends, fun further hfurther => ?_⟩
            rw [substitute, hvalue further hfurther, hhead]
          · simp at h
      | _ => simp [unify] at h

theorem unifyAll_sound {ps cs : List Ty} {b b' : Bindings} (h : unifyAll ps cs b = (true, b')) :
    b.Extends b' ∧ ∀ further, b'.Extends further → substituteAll further ps = cs := by
  cases ps with
  | nil =>
      cases cs with
      | nil =>
          simp only [unifyAll, Prod.mk.injEq, true_and] at h
          subst h
          exact ⟨.refl b, fun _ _ => rfl⟩
      | cons c cs => simp [unifyAll] at h
  | cons p ps =>
      cases cs with
      | nil => simp [unifyAll] at h
      | cons c cs =>
          rw [unifyAll] at h
          split at h
          · rename_i hfirst
            obtain ⟨hextends, hhead⟩ := unify_sound hfirst
            obtain ⟨hextends', htail⟩ := unifyAll_sound h
            refine ⟨hextends.trans hextends', fun further hfurther => ?_⟩
            rw [substituteAll, hhead further (hextends'.trans hfurther), htail further hfurther]
          · simp at h

end

/-- The bindings of a match turn the pattern into the type. -/
theorem substitute_of_match? {p c : Ty} {bindings : Bindings} (h : match? p c = some bindings) :
    p.substitute bindings = c := by
  unfold match? at h
  split at h
  · rename_i hunify
    cases h
    exact (unify_sound hunify).2 _ (.refl _)
  · cases h

end Ty

end Wiring
