import Mathlib.Data.List.Pairwise
import Wiring.Proofs.Arrays

/-!
# What becomes of a declaration

A container drops a declaration where an earlier one has its type and its identity. That is meant for
a source declared twice. Identity leaves out how a value is built, though, so the declaration of another
source can be dropped as well.

* `Provider.SameFields` — two declarations of one source, whatever their sites.
* `FirstOfEach` — what is left of a list when only the first of several that are the same is kept.
* `Declarations.declaredFor_firstOfEach` — a container keeps the first of each identity.
* `Declarations.keeps_declared` — if that tells the sources of a type apart, none of them is lost.
* `Declarations.drops_declared` — if it does not, one is.
-/

namespace Wiring

/-! ### Sources -/

namespace Provider

mutual

/-- A provider without its sites, which are not part of what was declared. -/
def unplaced : Provider → Provider
  | .construct _ rule => .construct none rule
  | .factory _ product maker lifetime isAsync =>
      .factory none product maker.unplaced lifetime isAsync
  | .call _ rule => .call none rule
  | .decorated _ decorator inner => .decorated none decorator inner.unplaced
  | .forwarded ty inner => .forwarded ty inner.unplaced
  | .array ty element items => .array ty element (unplacedAll items)
  | p => p

/-- Providers without their sites. -/
def unplacedAll : List Provider → List Provider
  | [] => []
  | p :: ps => p.unplaced :: unplacedAll ps

end

/-- Whether two providers are the same source: they agree in every field, and so do the providers
inside them. -/
def SameFields (p q : Provider) : Prop := p.unplaced = q.unplaced

/-- Identity does not look at sites. -/
theorem identity_unplaced (p : Provider) : p.unplaced.identity = p.identity := by
  fun_induction identity p <;> simp_all [unplaced, identity]

theorem sameFields_equivalence : Equivalence SameFields :=
  ⟨fun _ => rfl, fun h => h.symm, fun h h' => h.trans h'⟩

theorem same_equivalence : Equivalence fun p q : Provider => p.same q = true where
  refl _ := beq_self_eq_true _
  symm h := beq_iff_eq.mpr (beq_iff_eq.mp h).symm
  trans h h' := beq_iff_eq.mpr ((beq_iff_eq.mp h).trans (beq_iff_eq.mp h'))

/-- Declarations of one source have one identity. -/
theorem same_of_sameFields {p q : Provider} (h : p.SameFields q) : p.same q = true := by
  rw [same, beq_iff_eq, ← p.identity_unplaced, ← q.identity_unplaced]
  exact congrArg identity h

end Provider

/-! ### The first of each -/

/-- `kept` has the first of those in `all` that are the same, in the order of `all`. -/
structure FirstOfEach (same : Provider → Provider → Prop) (all kept : List Provider) : Prop where
  order : kept.Sublist all
  distinct : kept.Pairwise fun p q => ¬ same p q
  /-- One that nothing before it is the same as stands between what is kept from before it and what is
  kept from after it. -/
  first : ∀ before p after, all = before ++ p :: after → (∀ q ∈ before, ¬ same q p) →
    ∃ keptBefore keptAfter, kept = keptBefore ++ p :: keptAfter ∧
      keptBefore.Sublist before ∧ keptAfter.Sublist after

namespace FirstOfEach

variable {same same' : Provider → Provider → Prop} {all kept : List Provider} {p q : Provider}

/-- It depends only on which members are the same. -/
theorem congr (h : FirstOfEach same all kept)
    (hsame : ∀ p ∈ all, ∀ q ∈ all, same p q ↔ same' p q) : FirstOfEach same' all kept where
  order := h.order
  distinct := h.distinct.imp_of_mem fun hp hq hne hsame' =>
    hne ((hsame _ (h.order.subset hp) _ (h.order.subset hq)).mpr hsame')
  first := by
    rintro before p after rfl hnone
    refine h.first before p after rfl fun q hq hsame' => hnone q hq ((hsame q ?_ p ?_).mp hsame')
    · exact List.mem_append_left _ hq
    · exact List.mem_append_right _ List.mem_cons_self

/-- The same holds of a part of both lists, if members that are the same are in it together. -/
theorem filter (h : FirstOfEach same all kept) (keeps : Provider → Bool)
    (hkeeps : ∀ p q, same p q → keeps q = true → keeps p = true) :
    FirstOfEach same (all.filter keeps) (kept.filter keeps) where
  order := h.order.filter _
  distinct := h.distinct.filter _
  first := by
    intro before p after hall hnone
    obtain ⟨front, back, rfl, rfl, hback⟩ := List.filter_eq_append_iff.mp hall
    obtain ⟨skipped, rest, rfl, hskipped, hp, rfl⟩ := List.filter_eq_cons_iff.mp hback
    have hfirst : ∀ q ∈ front ++ skipped, ¬ same q p := by
      intro q hq hsame
      have hkept : keeps q = true := hkeeps q p hsame hp
      rcases List.mem_append.mp hq with hfront | hq
      · exact hnone q (List.mem_filter.mpr ⟨hfront, hkept⟩) hsame
      · exact hskipped q hq hkept
    obtain ⟨keptBefore, keptAfter, rfl, hbefore, hafter⟩ :=
      h.first (front ++ skipped) p rest (by rw [List.append_assoc]) hfirst
    refine ⟨keptBefore.filter keeps, keptAfter.filter keeps, ?_, ?_, hafter.filter _⟩
    · rw [List.filter_append, List.filter_cons_of_pos hp]
    · have hsublist := hbefore.filter keeps
      rwa [List.filter_append, List.filter_eq_nil_iff.mpr hskipped, List.append_nil] at hsublist

/-- Nothing is kept twice. -/
theorem eq_of_same (h : FirstOfEach same all kept) (hequiv : Equivalence same) (hp : p ∈ kept)
    (hq : q ∈ kept) (hsame : same p q) : p = q := by
  have hsymm : Std.Symm fun p q => ¬ same p q := ⟨fun _ _ hne hsame => hne (hequiv.symm hsame)⟩
  by_contra hne
  exact h.distinct.forall hp hq hne hsame

/-- Every member is kept, or an earlier one that is the same. -/
theorem exists_same (h : FirstOfEach same all kept) (hequiv : Equivalence same)
    (before : List Provider) (p : Provider) (after : List Provider)
    (hall : all = before ++ p :: after) : ∃ q ∈ kept, same q p := by
  by_cases hnone : ∀ q ∈ before, ¬ same q p
  · obtain ⟨keptBefore, keptAfter, rfl, -, -⟩ := h.first before p after hall hnone
    exact ⟨p, by simp, hequiv.refl p⟩
  · push Not at hnone
    obtain ⟨q, hq, hsame⟩ := hnone
    obtain ⟨front, back, rfl⟩ := List.append_of_mem hq
    obtain ⟨r, hr, hrq⟩ :=
      h.exists_same hequiv front q (back ++ p :: after) (by rw [hall]; simp)
    exact ⟨r, hr, hequiv.trans hrq hsame⟩
termination_by before.length

/-- Of two members that are not the same, something is kept of each. -/
theorem two_le_length (h : FirstOfEach same all kept) (hequiv : Equivalence same) (hp : p ∈ all)
    (hq : q ∈ all) (hne : ¬ same p q) : 2 ≤ kept.length := by
  have hkept : ∀ r ∈ all, ∃ s ∈ kept, same s r := by
    intro r hr
    obtain ⟨before, after, hall⟩ := List.append_of_mem hr
    exact h.exists_same hequiv before r after hall
  obtain ⟨p', hp', hsame⟩ := hkept p hp
  obtain ⟨q', hq', hsame'⟩ := hkept q hq
  have hdistinct : p' ≠ q' := by
    rintro rfl
    exact hne (hequiv.trans (hequiv.symm hsame) hsame')
  obtain _ | ⟨r, _ | ⟨s, rest⟩⟩ := kept
  · cases hp'
  · exact absurd ((List.mem_singleton.mp hp').trans (List.mem_singleton.mp hq').symm) hdistinct
  · simp

end FirstOfEach

/-! ### What a container keeps -/

/-- Several candidates are ambiguous. -/
theorem Resolution.ofList_of_two_le {candidates : List Provider} (h : 2 ≤ candidates.length) :
    ofList candidates = .ambiguous candidates.length := by
  match candidates, h with
  | p :: q :: rest, _ => rfl

namespace Catalog

theorem insert_of_none {declared : List Provider} {p : Provider}
    (h : ∀ q ∈ declared, ¬ (q.ty = p.ty ∧ q.same p = true)) : insert declared p = declared ++ [p] :=
  if_neg (by simpa using h)

theorem pairwise_insert {declared : List Provider}
    (h : declared.Pairwise fun p q => ¬ (p.ty = q.ty ∧ p.same q = true)) (p : Provider) :
    (insert declared p).Pairwise fun p q => ¬ (p.ty = q.ty ∧ p.same q = true) := by
  by_cases hnone : ∀ q ∈ declared, ¬ (q.ty = p.ty ∧ q.same p = true)
  · rw [insert_of_none hnone, List.pairwise_append]
    refine ⟨h, List.pairwise_singleton _ _, fun q hq r hr => ?_⟩
    obtain rfl := List.mem_singleton.mp hr
    exact hnone q hq
  · rwa [insert, if_pos (by simpa using hnone)]

/-- Of the providers declared, the first of each type and identity is kept. -/
theorem declared_firstOfEach (providers : List Provider) (templates : List FactoryCall)
    (decorators : List Decorator) :
    FirstOfEach (fun p q => p.ty = q.ty ∧ p.same q = true) providers
      (ofDeclarations providers templates decorators).declared where
  order := declared_sublist providers templates decorators
  distinct :=
    List.foldlRecOn providers insert List.Pairwise.nil fun _ h p _ => pairwise_insert h p
  first := by
    rintro before p after rfl hnone
    obtain ⟨keptBefore, hbefore, heq⟩ := foldl_insert before []
    obtain ⟨keptAfter, hafter, heq'⟩ := foldl_insert after (keptBefore ++ [p])
    refine ⟨keptBefore, keptAfter, ?_, hbefore, hafter⟩
    change (before ++ p :: after).foldl insert [] = _
    rw [List.foldl_append, heq, List.nil_append, List.foldl_cons,
      insert_of_none fun q hq => hnone q (hbefore.subset hq), heq', List.append_assoc,
      List.singleton_append]

end Catalog

namespace Declarations

variable {ds : Declarations} {t : Ty} {p q : Provider}

/-- The providers declared for a type, in order. -/
def declaredAs (ds : Declarations) (t : Ty) : List Provider :=
  ds.providers.filter fun p => p.ty = t

/-- Of the providers declared for a type, a container keeps the first of each identity. -/
theorem declaredFor_firstOfEach (ds : Declarations) (t : Ty) :
    FirstOfEach (fun p q => p.same q = true) (ds.declaredAs t)
      (ds.build.catalog.declaredFor t) := by
  have hkept := (Catalog.declared_firstOfEach ds.providers ds.templates ds.decorators).filter
    (fun p => p.ty = t) fun p q hsame hq => by simpa [hsame.1] using hq
  refine hkept.congr fun p hp q hq => ⟨And.right, fun hsame => ⟨?_, hsame⟩⟩
  exact (of_decide_eq_true (List.mem_filter.mp hp).2).trans
    (of_decide_eq_true (List.mem_filter.mp hq).2).symm

/-- Of two sources that have one identity, a container does not keep both. -/
theorem drops_declared (ds : Declarations) (t : Ty) (hsame : p.same q = true)
    (hne : ¬ p.SameFields q) :
    ¬ ((∃ p' ∈ ds.build.catalog.declaredFor t, p'.SameFields p) ∧
      ∃ q' ∈ ds.build.catalog.declaredFor t, q'.SameFields q) := by
  rintro ⟨⟨p', hp', hpfields⟩, q', hq', hqfields⟩
  have hsame' : p'.same q' = true :=
    Provider.same_equivalence.trans (Provider.same_of_sameFields hpfields)
      (Provider.same_equivalence.trans hsame (Provider.same_of_sameFields hqfields.symm))
  have heq : p' = q' :=
    (ds.declaredFor_firstOfEach t).eq_of_same Provider.same_equivalence hp' hq' hsame'
  subst heq
  exact hne (hpfields.symm.trans hqfields)

/-- No declaration is lost where the sources declared for a type can be told apart by their identity:
of the sources declared for it a container keeps the first declaration of each, in their order. If two
of them differ in any field the type is ambiguous, and an array of the type that nobody declared has
one item for each source. -/
theorem keeps_declared (ds : Declarations) (t : Ty)
    (hidentity : ∀ p ∈ ds.declaredAs t, ∀ q ∈ ds.declaredAs t, p.same q = true → p.SameFields q) :
    ∃ kept, FirstOfEach Provider.SameFields (ds.declaredAs t) kept ∧
      (∀ p ∈ ds.declaredAs t, ∀ q ∈ ds.declaredAs t, ¬ p.SameFields q →
        2 ≤ kept.length ∧ ds.build.resolve t = .ambiguous kept.length) ∧
      (ds.declaredAs t ≠ [] → (∀ p ∈ ds.providers, p.ty ≠ .array t) →
        ds.build.resolve (.array t) = .found (ds.build.catalog.decorate
          (.array (.array t) t (kept.map ds.build.catalog.decorate)))) := by
  have hkept : FirstOfEach Provider.SameFields (ds.declaredAs t) (ds.build.catalog.declaredFor t) :=
    (ds.declaredFor_firstOfEach t).congr fun p hp q hq =>
      ⟨hidentity p hp q hq, Provider.same_of_sameFields⟩
  refine ⟨_, hkept, fun p hp q hq hne => ?_, fun hsome hundeclared => ?_⟩
  · have htwo := hkept.two_le_length Provider.sameFields_equivalence hp hq hne
    refine ⟨htwo, ?_⟩
    have hsome : ds.build.catalog.declaredFor t ≠ [] := List.ne_nil_of_length_pos (by omega)
    obtain ⟨hitems, hresolve⟩ := Catalog.items_declared hsome
    rw [hitems, Resolution.ofList_of_two_le (by rwa [List.length_map]), List.length_map] at hresolve
    exact hresolve
  · obtain ⟨p, hp⟩ := List.exists_mem_of_ne_nil _ hsome
    obtain ⟨hp, hty⟩ := List.mem_filter.mp hp
    have hsome : ds.build.catalog.declaredFor t ≠ [] := fun hnil =>
      declaredFor_eq_nil_iff.mp hnil p hp (of_decide_eq_true hty)
    rw [← (Catalog.items_declared hsome).1]
    exact Catalog.resolve_array_undeclared (declaredFor_eq_nil_iff.mpr hundeclared)

/-- A constructor, and a function declared twice: two sources. -/
theorem keeps_declared_repeated :
    let a : Ty := .plain "A"
    let make : Method := .function (.plain "Module") "make" [] a
    let ds := ((({} : Declarations).addConstructor (.new a []) .dependency {}).addFunction make
      .dependency {}).addFunction make .dependency {}
    (∀ p ∈ ds.declaredAs a, ∀ q ∈ ds.declaredAs a, p.same q = true → p.SameFields q) ∧
      (ds.declaredAs a).length = 3 ∧ (∀ p ∈ ds.providers, p.ty ≠ .array a) ∧
      ∃ kept, FirstOfEach Provider.SameFields (ds.declaredAs a) kept ∧ kept.length = 2 ∧
        ds.build.resolve a = .ambiguous kept.length ∧
        ds.build.resolve (.array a) = .found (ds.build.catalog.decorate
          (.array (.array a) a (kept.map ds.build.catalog.decorate))) := by
  intro a make ds
  let rule (site : Nat) : Provider := .call (some site)
    { method := make, product := a, lifetime := .dependency, isTemplate := false, isAsync := false,
      disposability := .none }
  let constructed : Provider := .construct (some 0)
    { ty := a, lifetime := .dependency, constructor := .new a [], initialized := false,
      isAsync := false, disposability := .none }
  have hdeclared : ds.declaredAs a = [constructed, rule 1, rule 2] := by rfl
  have hidentity : ∀ p ∈ ds.declaredAs a, ∀ q ∈ ds.declaredAs a,
      p.same q = true → p.SameFields q := by
    simp only [hdeclared, List.forall_mem_cons, List.not_mem_nil, false_imp_iff, implies_true,
      and_true]
    have hcall : ∀ site, constructed.same (rule site) = true → constructed.SameFields (rule site) :=
      fun _ => nofun
    have hconstruct : ∀ site, (rule site).same constructed = true →
        (rule site).SameFields constructed := fun _ => nofun
    exact ⟨⟨fun _ => rfl, hcall 1, hcall 2⟩, ⟨hconstruct 1, fun _ => rfl, fun _ => rfl⟩,
      hconstruct 2, fun _ => rfl, fun _ => rfl⟩
  have hundeclared : ∀ p ∈ ds.providers, p.ty ≠ .array a := by decide +kernel
  have hdiffer : ¬ constructed.SameFields (rule 1) := nofun
  have hambiguous : ds.build.resolve a = .ambiguous 2 := by cbv
  obtain ⟨kept, hkept, hresolve, harray⟩ := keeps_declared ds a hidentity
  obtain ⟨-, hcount⟩ :=
    hresolve constructed (by simp [hdeclared]) (rule 1) (by simp [hdeclared]) hdiffer
  injection hambiguous.symm.trans hcount with htwo
  exact ⟨hidentity, by rw [hdeclared]; rfl, hundeclared, kept, hkept, htwo.symm, hcount,
    harray (by simp [hdeclared]) hundeclared⟩

/-- Two constructors of a type, one of which needs an `X`: the second declaration is lost. -/
theorem loses_declared :
    let a : Ty := .plain "A"
    let needy : Method := .new a [⟨"x", 0, .plain "X", false⟩]
    let ds := (({} : Declarations).addConstructor (.new a []) .dependency {}).addConstructor needy
      .dependency {}
    ∃ p ∈ ds.declaredAs a, ∃ q ∈ ds.declaredAs a, ¬ p.SameFields q ∧
      (∀ n, ds.build.resolve a ≠ .ambiguous n) ∧
      ∃ items, ds.build.resolve (.array a) = .found (.array (.array a) a items) ∧
        ¬ ∃ item ∈ items, item.SameFields q := by
  intro a needy ds
  let rule (site : Nat) (constructor : Method) : Provider := .construct (some site)
    { ty := a, lifetime := .dependency, constructor, initialized := false, isAsync := false,
      disposability := .none }
  have hdeclared : ds.declaredAs a = [rule 0 (.new a []), rule 1 needy] := by rfl
  have hdiffer : ¬ (rule 0 (.new a [])).SameFields (rule 1 needy) := by
    intro hsame
    injection hsame with _ hrule
    injection hrule with _ _ hmethod
    injection hmethod with _ _ _ _ hparams
    cases hparams
  refine ⟨rule 0 (.new a []), by simp [hdeclared], rule 1 needy, by simp [hdeclared], hdiffer,
    ?_, ?_⟩
  · have hfound : ds.build.resolve a = .found (rule 0 (.new a [])) := by cbv
    intro n hambiguous
    cases hfound.symm.trans hambiguous
  · refine ⟨[rule 0 (.new a [])], by cbv, ?_⟩
    rintro ⟨item, hitem, hsame⟩
    rw [List.mem_singleton] at hitem
    exact hdiffer (hitem ▸ hsame)

end Declarations

end Wiring
