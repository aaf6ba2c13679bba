import Mathlib.Data.List.Permutation
import Wiring.Proofs.Typing

/-!
# Arrays made up for a type

An array that nobody declared holds the declared providers of its element type. Where there are none it
holds what a template fits; but if several templates fit, so that the element alone is ambiguous, the
array is empty.

* `Catalog.exists_same_of_mem` — what a container keeps of the providers declared.
* `Catalog.items_declared`, `Catalog.items_undeclared` — the items of an array.
* `Declarations.resolve_array` — an array and its element side by side.
* `Declarations.array_loses_templates` — where they disagree.
-/

namespace Wiring

/-- Whether the type wraps another one: such a type needs no declaration. -/
def Ty.isWrapper : Ty → Bool
  | .array _ | .delegate .. | .owned .. => true
  | _ => false

/-- What an answer tells of the candidates. -/
theorem Resolution.ofList_cases (candidates : List Provider) :
    (ofList candidates = .missing → candidates = []) ∧
      (∀ p, ofList candidates = .found p → candidates = [p]) ∧
      ∀ n, ofList candidates = .ambiguous n → candidates.length = n := by
  match candidates with
  | [] => exact ⟨fun _ => rfl, nofun, nofun⟩
  | [p] => exact ⟨nofun, fun _ (.refl _) => rfl, nofun⟩
  | p :: q :: rest => exact ⟨nofun, nofun, fun _ (.refl _) => rfl⟩

theorem Resolution.map_ofList (f : Provider → Provider) (candidates : List Provider) :
    (ofList candidates).map f = ofList (candidates.map f) := by
  match candidates with
  | [] => rfl
  | [p] => rfl
  | p :: q :: rest => simp [ofList, map]

namespace Catalog

variable {catalog : Catalog} {ty element : Ty} {p : Provider}

/-! ### What is kept of the providers declared -/

theorem exists_same_insert (declared : List Provider) (p : Provider) :
    ∃ q ∈ insert declared p, q.ty = p.ty ∧ q.same p = true := by
  unfold insert
  split
  · rename_i hany
    obtain ⟨q, hq, hsame⟩ := List.any_eq_true.mp hany
    simp only [Bool.and_eq_true, beq_iff_eq] at hsame
    exact ⟨q, hq, hsame⟩
  · exact ⟨p, by simp, rfl, by simp [Provider.same]⟩

/-- Every provider declared is kept, or one of its type and identity. -/
theorem exists_same_of_mem {providers : List Provider} (templates : List FactoryCall)
    (decorators : List Decorator) (hp : p ∈ providers) :
    ∃ q ∈ (ofDeclarations providers templates decorators).declared, q.ty = p.ty ∧ q.same p = true := by
  obtain ⟨before, after, rfl⟩ := List.append_of_mem hp
  obtain ⟨q, hq, hsame⟩ := exists_same_insert (before.foldl insert []) p
  refine ⟨q, ?_, hsame⟩
  change q ∈ (before ++ p :: after).foldl insert []
  rw [List.foldl_append, List.foldl_cons]
  obtain ⟨added, -, heq⟩ := foldl_insert after (insert (before.foldl insert []) p)
  exact heq ▸ List.mem_append_left added hq

/-! ### The items of an array -/

/-- An array that nobody declared is made up of its items. -/
theorem resolve_array_undeclared (h : catalog.declaredFor (.array element) = []) :
    catalog.resolve (.array element) =
      .found (catalog.decorate (.array (.array element) element (catalog.items element))) := by
  unfold resolve
  rw [h]
  rfl

/-- Where providers of a type are declared, they are the items, and the items are the candidates. -/
theorem items_declared (h : catalog.declaredFor ty ≠ []) :
    catalog.items ty = (catalog.declaredFor ty).map catalog.decorate ∧
      catalog.resolve ty = .ofList (catalog.items ty) := by
  have hitems : catalog.items ty = (catalog.declaredFor ty).map catalog.decorate := by
    unfold items
    cases hdeclared : catalog.declaredFor ty with
    | nil => exact absurd hdeclared h
    | cons p rest => rfl
  refine ⟨hitems, ?_⟩
  rw [hitems, ← Resolution.map_ofList]
  unfold resolve
  cases hdeclared : catalog.declaredFor ty with
  | nil => exact absurd hdeclared h
  | cons p rest => rfl

/-- Where none is declared, there is an item if exactly one template fits. -/
theorem items_undeclared (h : catalog.declaredFor ty = []) (hwrapper : ty.isWrapper = false) :
    catalog.items ty = (catalog.resolve ty).provider?.toList := by
  have hmadeUp : catalog.synthesize ty = catalog.specialize ty := by
    cases ty with
    | array | delegate | owned => cases hwrapper
    | _ => rfl
  unfold items resolve
  rw [h, hmadeUp]
  cases catalog.specialize ty <;> rfl

end Catalog

namespace Declarations

variable {ds : Declarations} {ty : Ty}

/-- The providers that a container keeps of a type, in the order of their declaration. -/
theorem declaredFor_sublist (ds : Declarations) (ty : Ty) :
    (ds.build.catalog.declaredFor ty).Sublist (ds.providers.filter fun p => p.ty = ty) :=
  (Catalog.declared_sublist _ _ _).filter _

theorem declaredFor_eq_nil_iff :
    ds.build.catalog.declaredFor ty = [] ↔ ∀ p ∈ ds.providers, p.ty ≠ ty := by
  constructor
  · intro hnil p hp hty
    obtain ⟨q, hq, hqty, -⟩ := Catalog.exists_same_of_mem ds.templates ds.decorators hp
    have hmem : q ∈ ds.build.catalog.declaredFor ty :=
      List.mem_filter.mpr ⟨hq, by simpa using hqty.trans hty⟩
    rw [hnil] at hmem
    cases hmem
  · intro hnone
    have hsublist := ds.declaredFor_sublist ty
    rw [List.filter_eq_nil_iff.mpr fun p hp => by simpa using hnone p hp] at hsublist
    exact List.sublist_nil.mp hsublist

/-- A provider declared alone is found wrapped as it is among others. -/
theorem lookup_alone (ds : Declarations) {p : Provider} (hp : p.ty = ty) :
    ({ ds with providers := [p] }).build.lookup ty = some (ds.build.catalog.decorate p) := by
  have hdeclared : ({ ds with providers := [p] }).build.catalog.declaredFor ty = [p] :=
    List.filter_cons_of_pos (by simpa using hp)
  obtain ⟨hitems, hresolve⟩ :=
    Catalog.items_declared (by rw [hdeclared]; exact List.cons_ne_nil _ _)
  rw [hitems, hdeclared] at hresolve
  change (({ ds with providers := [p] }).build.catalog.resolve ty).provider? = _
  rw [hresolve]
  rfl

/-- An array that nobody declared holds what its element type has: nothing, the one provider, or all
that are declared, in their order and each wrapped as it would be if it were declared alone. If the
element type has several providers because several templates fit, the array is empty. -/
theorem resolve_array (ds : Declarations) (t : Ty) (hwrapper : t.isWrapper = false)
    (hundeclared : ∀ p ∈ ds.providers, p.ty ≠ .array t) :
    ∃ items,
      ds.build.resolve (.array t) =
        .found (ds.build.catalog.decorate (.array (.array t) t items)) ∧
      (ds.build.resolve t = .missing → items = []) ∧
      (∀ p, ds.build.resolve t = .found p → items = [p]) ∧
      (∀ n, ds.build.resolve t = .ambiguous n →
        ((∃ p ∈ ds.providers, p.ty = t) → items.length = n) ∧
        ((∀ p ∈ ds.providers, p.ty ≠ t) → items = [])) ∧
      ((∃ p ∈ ds.providers, p.ty = t) → ∃ sources,
        sources.Sublist (ds.providers.filter fun p => p.ty = t) ∧
        (∀ p ∈ ds.providers, p.ty = t → ∃ q ∈ sources, q.same p = true) ∧
        List.Forall₂ (fun source item =>
          ({ ds with providers := [source] }).build.lookup t = some item) sources items) := by
  refine ⟨ds.build.catalog.items t,
    Catalog.resolve_array_undeclared (declaredFor_eq_nil_iff.mpr hundeclared), ?_⟩
  change (ds.build.catalog.resolve t = _ → _) ∧ (∀ p, ds.build.catalog.resolve t = _ → _) ∧
    (∀ n, ds.build.catalog.resolve t = _ → _) ∧ _
  -- What is declared for the element type takes precedence over templates, for the element type as for
  -- the array; without a declaration the items are what looking up the element type finds, if it finds
  -- one.
  by_cases hdeclared : ds.build.catalog.declaredFor t = []
  · have hnone := declaredFor_eq_nil_iff.mp hdeclared
    have hnot : ¬ ∃ p ∈ ds.providers, p.ty = t := fun ⟨p, hp, hty⟩ => hnone p hp hty
    rw [Catalog.items_undeclared hdeclared hwrapper]
    refine ⟨fun h => by rw [h]; rfl, fun p h => by rw [h]; rfl,
      fun n h => ⟨fun hsome => absurd hsome hnot, fun _ => by rw [h]; rfl⟩,
      fun hsome => absurd hsome hnot⟩
  · have hnot : ¬ ∀ p ∈ ds.providers, p.ty ≠ t := fun hnone =>
      hdeclared (declaredFor_eq_nil_iff.mpr hnone)
    obtain ⟨hitems, hresolve⟩ := Catalog.items_declared hdeclared
    obtain ⟨hmissing, hfound, hambiguous⟩ :=
      Resolution.ofList_cases (ds.build.catalog.items t)
    rw [hresolve]
    refine ⟨hmissing, hfound, fun n h => ⟨fun _ => hambiguous n h, fun hnone => absurd hnone hnot⟩,
      fun _ => ⟨_, ds.declaredFor_sublist t, fun p hp hty => ?_, ?_⟩⟩
    · obtain ⟨q, hq, hqty, hsame⟩ := Catalog.exists_same_of_mem ds.templates ds.decorators hp
      exact ⟨q, List.mem_filter.mpr ⟨hq, by simpa using hqty.trans hty⟩, hsame⟩
    · rw [hitems, List.forall₂_map_right_iff, List.forall₂_same]
      intro source hsource
      exact ds.lookup_alone (by simpa using (List.mem_filter.mp hsource).2)

/-- Two declared providers, the second of them wrapped like the first, with a template besides. -/
theorem resolve_array_declared :
    let plugin : Ty := .plain "Plugin"
    let t : Ty := .param "T"
    let logging : Decorator :=
      .construction (.new (.plain "Logging") [⟨"inner", 0, plugin, false⟩]) plugin 0
    let ds := ((({} : Declarations).addConstructor (.new plugin []) .resolution {}).addFunction
      { Method.function (.plain "Module") "any" [] t with typeArgs := [t] } .resolution {}
      |>.addFunction (.function (.plain "Module") "extra" [] plugin) .dependency {}).addDecorator
        logging
    plugin.isWrapper = false ∧ (∀ p ∈ ds.providers, p.ty ≠ .array plugin) ∧
      (∃ p ∈ ds.providers, p.ty = plugin) ∧ ds.build.resolve plugin = .ambiguous 2 ∧
      ∃ items, ds.build.resolve (.array plugin) =
          .found (ds.build.catalog.decorate (.array (.array plugin) plugin items)) ∧
        items.length = 2 ∧
        ∃ sources, sources.Sublist (ds.providers.filter fun p => p.ty = plugin) ∧
          (∀ p ∈ ds.providers, p.ty = plugin → ∃ q ∈ sources, q.same p = true) ∧
          List.Forall₂ (fun source item =>
            ({ ds with providers := [source] }).build.lookup plugin = some item) sources items := by
  intro plugin t logging ds
  have hundeclared : ∀ p ∈ ds.providers, p.ty ≠ .array plugin := by decide +kernel
  have hdeclared : ∃ p ∈ ds.providers, p.ty = plugin := by decide +kernel
  have hambiguous : ds.build.resolve plugin = .ambiguous 2 := by cbv
  obtain ⟨items, harray, -, -, hcounts, hsources⟩ := resolve_array ds plugin rfl hundeclared
  exact ⟨rfl, hundeclared, hdeclared, hambiguous, items, harray, (hcounts 2 hambiguous).1 hdeclared,
    hsources hdeclared⟩

/-- Two templates fit the element type, and none of them is in the array. -/
theorem array_loses_templates :
    let t : Ty := .param "T"
    let box (element : Ty) : Ty := .named "Box" [element]
    let make (name : String) : Method :=
      { Method.function (.plain "Module") name [] (box t) with typeArgs := [t] }
    let ds := (({} : Declarations).addFunction (make "first") .dependency {}).addFunction
      (make "second") .dependency {}
    let element := box (.plain "int")
    element.isWrapper = false ∧ (∀ p ∈ ds.providers, p.ty ≠ .array element) ∧
      ds.build.resolve element = .ambiguous 2 ∧
      ¬ ∃ items, ds.build.resolve (.array element) =
          .found (ds.build.catalog.decorate (.array (.array element) element items)) ∧
        items.length = 2 := by
  intro t box make ds element
  refine ⟨rfl, by decide, by cbv, ?_⟩
  rintro ⟨items, harray, hlength⟩
  have hempty : ds.build.resolve (.array element) = .found (.array (.array element) element []) := by
    cbv
  have hnone : items = [] := by
    injection harray.symm.trans hempty with hprovider
    injection hprovider
  rw [hnone] at hlength
  cases hlength

end Declarations

end Wiring
