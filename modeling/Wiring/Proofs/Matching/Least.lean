import Wiring.Proofs.Matching

/-!
# Matching is complete, and binds no more than it has to

Whatever bindings turn a template into a type, matching finds a part of them. A parameter that is not
bound stays as it is, so a template may become a type without binding all its parameters; matching
binds such a parameter to itself. Two bindings are therefore compared by what a parameter becomes
(`Bindings.value`), not by whether it is bound.

* `Bindings.Agrees` — what is bound is bound to what the parameter becomes under other bindings.
* `Ty.unify_substitute` — a template matches whatever it becomes under bindings that the given ones
  agree with, and then they still agree.
* `Ty.unify_least` — matching finds the least bindings that extend the given ones.
-/

namespace Wiring

namespace Bindings

/-- What a parameter becomes. -/
def value (bindings : Bindings) (name : String) : Ty :=
  (bindings.get? name).getD (.param name)

/-- Every parameter bound is bound to what it becomes under the other bindings. -/
def Agrees (bindings other : Bindings) : Prop :=
  ∀ name ty, bindings.get? name = some ty → other.value name = ty

/-- The bindings bind these parameters besides those bound before, and no more. -/
def Binds (before : Bindings) (names : List String) (after : Bindings) : Prop :=
  ∀ name, (after.get? name).isSome ↔ (before.get? name).isSome ∨ name ∈ names

variable {b b' b'' s : Bindings} {name : String} {ty : Ty}

theorem value_of_get? (h : b.get? name = some ty) : b.value name = ty := by
  rw [value, h, Option.getD_some]

theorem Extends.agrees (h : b.Extends s) : b.Agrees s :=
  fun name ty hbound => value_of_get? (h name ty hbound)

theorem get?_insert (name : String) (ty : Ty) (b : Bindings) (other : String) :
    (insert name ty b).get? other = if name = other then some ty else b.get? other := by
  split
  · rename_i heq
    rw [← heq, get?_insert_self]
  · rename_i hne
    rw [get?_insert_of_ne hne]

theorem Agrees.insert (h : b.Agrees s) (name : String) :
    Agrees (insert name (s.value name) b) s := by
  intro other ty hbound
  rw [get?_insert] at hbound
  split at hbound
  · rename_i heq
    cases hbound
    rw [heq]
  · exact h other ty hbound

theorem Binds.refl (b : Bindings) : b.Binds [] b := fun _ => by simp

theorem Binds.insert (b : Bindings) (name : String) (ty : Ty) :
    b.Binds [name] (insert name ty b) := by
  intro other
  rw [get?_insert, List.mem_singleton]
  split
  · rename_i heq
    simp [heq]
  · rename_i hne
    simp [Ne.symm hne]

theorem Binds.trans {names names' : List String} (h : b.Binds names b') (h' : b'.Binds names' b'') :
    b.Binds (names ++ names') b'' := by
  intro name
  rw [h' name, h name, List.mem_append, or_assoc]

end Bindings

namespace Ty

mutual

/-- The open parameters of a type, from left to right. -/
def parameters : Ty → List String
  | .named _ args => parametersAll args
  | .array element | .pointer element => parameters element
  | .functionPointer params result | .delegate params result _ =>
      parametersAll params ++ parameters result
  | .owned value _ => parameters value
  | .param name => [name]

/-- The open parameters of some types. -/
def parametersAll : List Ty → List String
  | [] => []
  | t :: ts => parameters t ++ parametersAll ts

end

theorem length_substituteAll (s : Bindings) (ts : List Ty) :
    (substituteAll s ts).length = ts.length := by
  induction ts with
  | nil => rfl
  | cons t ts ih => rw [substituteAll, List.length_cons, List.length_cons, ih]

mutual

/-- A template matches whatever it becomes under bindings that the given ones agree with. The given
ones grow by its parameters and still agree. -/
theorem unify_substitute (s : Bindings) (p : Ty) (b : Bindings) (h : b.Agrees s) :
    ∃ b', unify p (p.substitute s) b = (true, b') ∧ b'.Agrees s ∧ b.Binds p.parameters b' := by
  -- By the pattern. A parameter is bound to what the bindings give it, unless it is bound so already;
  -- everything else is passed on to the parts, from left to right.
  cases p with
  | param name =>
      cases hbound : b.get? name with
      | none =>
          refine ⟨b.insert name (s.value name), ?_, h.insert name, .insert b name _⟩
          simp only [unify, hbound, substitute, Bindings.value]
      | some bound =>
          have hvalue : (param name).substitute s = bound := h name bound hbound
          refine ⟨b, by simp [unify, hbound, hvalue], h, fun other => ?_⟩
          rw [parameters, List.mem_singleton]
          refine ⟨.inl, fun hother => hother.elim id ?_⟩
          rintro rfl
          simp [hbound]
  | named n ps =>
      obtain ⟨b', hall, hrest⟩ := unifyAll_substitute s ps b h
      exact ⟨b', by simp [unify, substitute, length_substituteAll, hall], hrest⟩
  | array p =>
      obtain ⟨b', helement, hrest⟩ := unify_substitute s p b h
      exact ⟨b', by rw [substitute, unify, helement], hrest⟩
  | pointer p =>
      obtain ⟨b', helement, hrest⟩ := unify_substitute s p b h
      exact ⟨b', by rw [substitute, unify, helement], hrest⟩
  | functionPointer ps p =>
      obtain ⟨b₁, hall, hagrees, hbinds⟩ := unifyAll_substitute s ps b h
      obtain ⟨b₂, hresult, hagrees', hbinds'⟩ := unify_substitute s p b₁ hagrees
      exact ⟨b₂, by simp [unify, substitute, length_substituteAll, hall, hresult], hagrees',
        hbinds.trans hbinds'⟩
  | delegate ps p isAsync =>
      obtain ⟨b₁, hall, hagrees, hbinds⟩ := unifyAll_substitute s ps b h
      obtain ⟨b₂, hresult, hagrees', hbinds'⟩ := unify_substitute s p b₁ hagrees
      exact ⟨b₂, by simp [unify, substitute, length_substituteAll, hall, hresult], hagrees',
        hbinds.trans hbinds'⟩
  | owned p isAsync =>
      obtain ⟨b', hvalue, hrest⟩ := unify_substitute s p b h
      exact ⟨b', by simp [unify, substitute, hvalue], hrest⟩

theorem unifyAll_substitute (s : Bindings) (ps : List Ty) (b : Bindings) (h : b.Agrees s) :
    ∃ b', unifyAll ps (substituteAll s ps) b = (true, b') ∧ b'.Agrees s ∧
      b.Binds (parametersAll ps) b' := by
  cases ps with
  | nil => exact ⟨b, rfl, h, .refl b⟩
  | cons p ps =>
      obtain ⟨b₁, hfirst, hagrees, hbinds⟩ := unify_substitute s p b h
      obtain ⟨b₂, hrest, hagrees', hbinds'⟩ := unifyAll_substitute s ps b₁ hagrees
      exact ⟨b₂, by simp [unifyAll, substituteAll, hfirst, hrest], hagrees', hbinds.trans hbinds'⟩

end

/-- Matching succeeds exactly when some bindings that extend the given ones turn the pattern into the
type. It then answers with such bindings: they bind the parameters of the pattern besides what was
bound before and nothing else, and they are part of all others that bind these parameters. -/
theorem unify_least (pattern concrete : Ty) (b : Bindings) :
    ((unify pattern concrete b).1 = true ↔
      ∃ s, b.Extends s ∧ pattern.substitute s = concrete) ∧
    ∀ b', unify pattern concrete b = (true, b') →
      b.Extends b' ∧
      (∀ name, (b'.get? name).isSome ↔ (b.get? name).isSome ∨ name ∈ pattern.parameters) ∧
      pattern.substitute b' = concrete ∧
      ∀ s, b.Extends s → pattern.substitute s = concrete →
        (∀ name ∈ pattern.parameters, (s.get? name).isSome) → b'.Extends s := by
  refine ⟨⟨fun h => ?_, ?_⟩, fun b' h => ?_⟩
  · have hunify : unify pattern concrete b = (true, (unify pattern concrete b).2) := Prod.ext h rfl
    obtain ⟨hextends, hfits⟩ := unify_sound hunify
    exact ⟨_, hextends, hfits _ (.refl _)⟩
  · rintro ⟨s, hextends, rfl⟩
    obtain ⟨b', hunify, -⟩ := unify_substitute s pattern b hextends.agrees
    rw [hunify]
  · obtain ⟨hextends, hfits⟩ := unify_sound h
    have hbecomes : pattern.substitute b' = concrete := hfits b' (.refl b')
    -- Matching what the pattern becomes under its own result gives that result again, so it binds just
    -- the parameters.
    obtain ⟨b₁, hunify, -, hbinds⟩ := unify_substitute b' pattern b hextends.agrees
    rw [hbecomes] at hunify
    cases h.symm.trans hunify
    refine ⟨hextends, hbinds, hbecomes, fun s hs hsbecomes hsbinds name ty hbound => ?_⟩
    -- The bindings found agree with `s`, and where they bind a parameter, so does `s`.
    obtain ⟨b₂, hunify', hagrees, -⟩ := unify_substitute s pattern b hs.agrees
    rw [hsbecomes] at hunify'
    cases h.symm.trans hunify'
    have hsome : (s.get? name).isSome := by
      rcases (hbinds name).mp (by rw [hbound]; rfl) with hbefore | hparameter
      · obtain ⟨bound, hbefore⟩ := Option.isSome_iff_exists.mp hbefore
        rw [hs name bound hbefore]
        rfl
      · exact hsbinds name hparameter
    obtain ⟨bound, hs⟩ := Option.isSome_iff_exists.mp hsome
    rw [hs, ← hagrees name ty hbound, Bindings.value_of_get? hs]

/-- A parameter that stands twice for one open type, one that stands for itself, and one that is bound
already. -/
theorem unify_least_open :
    let a : Ty := .plain "A"
    let pattern : Ty := .named "P" [.param "T", .delegate [.param "U"] (.param "T") true, .param "V"]
    let concrete : Ty :=
      .named "P" [.array (.param "X"), .delegate [.param "U"] (.array (.param "X")) true, a]
    let b : Bindings := [("V", a), ("W", a)]
    let b' : Bindings := [("T", .array (.param "X")), ("U", .param "U"), ("V", a), ("W", a)]
    unify pattern concrete b = (true, b') ∧ b.Extends b' ∧
      (∀ name, (b'.get? name).isSome ↔ (b.get? name).isSome ∨ name ∈ pattern.parameters) ∧
      pattern.substitute b' = concrete ∧
      ∀ s, b.Extends s → pattern.substitute s = concrete →
        (∀ name ∈ pattern.parameters, (s.get? name).isSome) → b'.Extends s := by
  intro a pattern concrete b b'
  have hunify : unify pattern concrete b = (true, b') := by decide +kernel
  exact ⟨hunify, (unify_least pattern concrete b).2 b' hunify⟩

end Ty

end Wiring
