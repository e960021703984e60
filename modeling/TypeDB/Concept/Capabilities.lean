import TypeDB.Foundations.Hierarchy
import TypeDB.Concept.Keys

/-! Capabilities of types, their constraints, and the constraints that apply to an object type and
an interface type through everything either inherits. Owns, plays and relates are read by the same
code. -/

namespace TypeDB.Concept
open List Hierarchy

structure AnnotationCardinality where
  start : Nat
  stop : Option Nat
  deriving DecidableEq

namespace AnnotationCardinality

def unchecked : AnnotationCardinality := ⟨0, none⟩

def requiresValidation (c : AnnotationCardinality) : Bool := decide (c ≠ unchecked)

def valueValid (c : AnnotationCardinality) (count : Nat) : Bool :=
  decide (c.start ≤ count) && match c.stop with
    | none => true
    | some stop => decide (count ≤ stop)

end AnnotationCardinality

/-- The regex, range and values annotations stand for the values they accept. -/
inductive Annotation
  | abstract
  | distinct
  | independent
  | unique
  | key
  | cardinality (cardinality : AnnotationCardinality)
  | regex (accepts : Value → Bool)
  | range (accepts : Value → Bool)
  | values (accepts : Value → Bool)

inductive ConstraintCategory
  | abstract
  | distinct
  | independent
  | unique
  | cardinality
  | regex
  | range
  | values
  deriving DecidableEq

inductive ConstraintDescription
  | abstract
  | distinct
  | independent
  | unique
  | cardinality (cardinality : AnnotationCardinality)
  | regex (accepts : Value → Bool)
  | range (accepts : Value → Bool)
  | values (accepts : Value → Bool)

inductive ConstraintScope
  | singleInstanceOfType
  | singleInstanceOfTypeOrSubtype
  | allInstancesOfSiblingTypeOrSubtypes
  | allInstancesOfTypeOrSubtypes

namespace ConstraintDescription

def fromAnnotation : Annotation → List ConstraintDescription
  | .abstract => [.abstract]
  | .distinct => [.distinct]
  | .independent => [.independent]
  | .unique => [.unique]
  | .key => [.unique, .cardinality ⟨1, some 1⟩]
  | .cardinality c => [.cardinality c]
  | .regex accepts => [.regex accepts]
  | .range accepts => [.range accepts]
  | .values accepts => [.values accepts]

def category : ConstraintDescription → ConstraintCategory
  | abstract => .abstract
  | distinct => .distinct
  | independent => .independent
  | unique => .unique
  | cardinality _ => .cardinality
  | regex _ => .regex
  | range _ => .range
  | values _ => .values

def scope : ConstraintDescription → ConstraintScope
  | abstract => .singleInstanceOfType
  | distinct | independent | regex _ | range _ | values _ => .singleInstanceOfTypeOrSubtype
  | cardinality _ => .allInstancesOfSiblingTypeOrSubtypes
  | unique => .allInstancesOfTypeOrSubtypes

def requiresValidation : ConstraintDescription → Bool
  | cardinality c => c.requiresValidation
  | independent => false
  | _ => true

end ConstraintDescription

@[ext]
structure Capability (O I : Type*) where
  object : O
  interface : I
  deriving DecidableEq

structure CapabilityConstraint (O I : Type*) where
  description : ConstraintDescription
  source : Capability O I

def CapabilityConstraint.category {O I : Type*} (c : CapabilityConstraint O I) :
    ConstraintCategory := c.description.category

structure Capabilities (O I : Type*) where
  objects : Hierarchy O
  interfaces : Hierarchy I
  declared : O → List I
  annotations : Capability O I → List Annotation
  defaults : Capability O I → List ConstraintDescription

structure HashOrder (α : Type*) where
  iter : List α → List α
  perm : ∀ l, (iter l).Perm l

def HashOrder.asListed {α : Type*} : HashOrder α := ⟨id, fun _ => .refl _⟩

namespace Capabilities
variable {O I : Type*} [DecidableEq O] [DecidableEq I] (caps : Capabilities O I)

def getCapabilitiesDeclared (o : O) : List (Capability O I) :=
  (caps.declared o).map fun i => ⟨o, i⟩

/-- `get_capabilities`: up the supertypes, where an interface already met counts as specialised. -/
def getCapabilities (o : O) (allowSpecialised : Bool) : List (Capability O I) :=
  (caps.objects.chain o).foldl (fun found t =>
    (caps.getCapabilitiesDeclared t).foldl (fun found capability =>
      if allowSpecialised || found.all fun c => decide (c.interface ≠ capability.interface)
      then found ++ [capability] else found) found) []

def getCapabilityConstraints (capability : Capability O I) : List (CapabilityConstraint O I) :=
  let declared := (caps.annotations capability).flatMap ConstraintDescription.fromAnnotation
  let defaults := (caps.defaults capability).filter fun d =>
    declared.all fun c => decide (c.category ≠ d.category)
  (declared ++ defaults).map fun d => ⟨d, capability⟩

/-- One turn of the inner loop of `get_type_capability_constraints`. -/
def addConstraint (objectCapability : Capability O I)
    (constraints : List (CapabilityConstraint O I)) (constraint : CapabilityConstraint O I) :
    List (CapabilityConstraint O I) :=
  match constraint.description.scope with
  | .singleInstanceOfType =>
    if constraint.source = objectCapability then constraints ++ [constraint] else constraints
  | .allInstancesOfTypeOrSubtypes =>
    match constraints.find? fun c => decide (c.category = constraint.category) with
    | none => constraints ++ [constraint]
    | some duplicate =>
      if constraint.source.interface ∈
          caps.interfaces.supertypesTransitive duplicate.source.interface
      then (constraints.eraseP fun c => decide (c.category = constraint.category)) ++ [constraint]
      else constraints
  | .singleInstanceOfTypeOrSubtype | .allInstancesOfSiblingTypeOrSubtypes =>
    constraints ++ [constraint]

def capabilityFor (o : O) (i : I) : Option (Capability O I) :=
  (caps.getCapabilities o false).find? fun c => decide (c.interface = i)

def affecting (o : O) (i : I) : List (Capability O I) :=
  (caps.getCapabilities o true).filter fun c => decide (c.interface ∈ caps.interfaces.chain i)

variable (order : HashOrder (Capability O I))

def getTypeCapabilityConstraints (o : O) (i : I) :
    List (CapabilityConstraint O I) :=
  match caps.capabilityFor o i with
  | none => []
  | some objectCapability =>
    (order.iter (caps.affecting o i)).foldl (fun constraints capability =>
      (caps.getCapabilityConstraints capability).foldl (caps.addConstraint objectCapability)
        constraints) []

def getConstraintUnique (o : O) (i : I) :
    Option (CapabilityConstraint O I) :=
  (caps.getTypeCapabilityConstraints order o i).find? fun c => decide (c.category = .unique)

def getConstraintsCardinality (o : O) (i : I) :
    List (CapabilityConstraint O I) :=
  (caps.getTypeCapabilityConstraints order o i).filter fun c => decide (c.category = .cardinality)

def getCheckedConstraints (constraints : List (CapabilityConstraint O I)) :
    List (CapabilityConstraint O I) :=
  constraints.filter fun c => c.description.requiresValidation

section Lemmas
variable {caps} {o t : O} {i j : I} {capability own : Capability O I}
  {c d : CapabilityConstraint O I} {cs : List (CapabilityConstraint O I)}

omit [DecidableEq O] in
theorem mem_getCapabilities_true : capability ∈ caps.getCapabilities o true ↔
      capability.object ∈ caps.objects.chain o ∧
        capability.interface ∈ caps.declared capability.object := by
  have hall : caps.getCapabilities o true =
      (caps.objects.chain o).flatMap caps.getCapabilitiesDeclared := by
    rw [getCapabilities, ← foldl_flatMap]
    simp [foldl_append_eq_append, ← flatMap_def]
  simp only [hall, mem_flatMap, getCapabilitiesDeclared, mem_map]
  constructor
  · rintro ⟨t, ht, i, hi, rfl⟩
    exact ⟨ht, hi⟩
  · exact fun h => ⟨_, h.1, _, h.2, rfl⟩

def Has (caps : Capabilities O I) (o : O) (i : I) : Prop :=
  ∃ t ∈ caps.objects.chain o, i ∈ caps.declared t

instance : Decidable (caps.Has o i) := inferInstanceAs (Decidable (∃ t ∈ _, _))

omit [DecidableEq O] in
theorem exists_interface_foldl (l found : List (Capability O I)) :
    (∃ c ∈ l.foldl (fun found capability =>
        if false || found.all fun c => decide (c.interface ≠ capability.interface)
        then found ++ [capability] else found) found, c.interface = i) ↔
      (∃ c ∈ found, c.interface = i) ∨ ∃ c ∈ l, c.interface = i := by
  induction l generalizing found with
  | nil => simp
  | cons x l ih =>
    rw [foldl_cons, ih, exists_mem_cons_iff, ← or_assoc]
    refine or_congr_left ?_
    split_ifs with hx
    · simp only [mem_append, mem_singleton, or_and_right, exists_or, exists_eq_left]
    · simp only [Bool.false_or, all_eq_true, decide_eq_true_eq, not_forall, not_not] at hx
      obtain ⟨c, hc, hcx⟩ := hx
      refine ⟨.inl, ?_⟩
      rintro (h | rfl)
      · exact h
      · exact ⟨c, hc, hcx⟩

omit [DecidableEq O] in
theorem capabilityFor_isSome_iff : (caps.capabilityFor o i).isSome ↔ caps.Has o i := by
  rw [capabilityFor, find?_isSome]
  simp only [decide_eq_true_eq]
  rw [getCapabilities, ← foldl_flatMap, exists_interface_foldl, Has]
  simp [getCapabilitiesDeclared]

omit [DecidableEq O] in
theorem mem_affecting : capability ∈ caps.affecting o i ↔ capability.object ∈ caps.objects.chain o ∧
      capability.interface ∈ caps.declared capability.object ∧
        capability.interface ∈ caps.interfaces.chain i := by
  rw [affecting, mem_filter, mem_getCapabilities_true, decide_eq_true_eq, and_assoc]

omit [DecidableEq O] [DecidableEq I] in
theorem source_of_mem (h : c ∈ caps.getCapabilityConstraints capability) :
    c.source = capability := by
  obtain ⟨d, -, rfl⟩ := mem_map.mp h
  rfl

def candidates (caps : Capabilities O I) (order : HashOrder (Capability O I)) (o : O) (i : I) :
    List (CapabilityConstraint O I) :=
  (order.iter (caps.affecting o i)).flatMap caps.getCapabilityConstraints

variable {order order' : HashOrder (Capability O I)}

omit [DecidableEq O] in
theorem mem_candidates : c ∈ caps.candidates order o i ↔
      c.source ∈ caps.affecting o i ∧ c ∈ caps.getCapabilityConstraints c.source := by
  rw [candidates, mem_flatMap]
  constructor
  · rintro ⟨capability, hmem, hc⟩
    have hsource := source_of_mem hc
    rw [(order.perm _).mem_iff] at hmem
    exact ⟨hsource ▸ hmem, hsource ▸ hc⟩
  · rintro ⟨hmem, hc⟩
    exact ⟨c.source, (order.perm _).mem_iff.mpr hmem, hc⟩

theorem getTypeCapabilityConstraints_eq (hown : caps.capabilityFor o i = some own) :
    caps.getTypeCapabilityConstraints order o i =
      (caps.candidates order o i).foldl (caps.addConstraint own) [] := by
  rw [getTypeCapabilityConstraints, hown, candidates, foldl_flatMap]

theorem getTypeCapabilityConstraints_of_not_has (h : ¬ caps.Has o i) :
    caps.getTypeCapabilityConstraints order o i = [] := by
  rw [← capabilityFor_isSome_iff, Option.not_isSome_iff_eq_none] at h
  rw [getTypeCapabilityConstraints, h]

omit [DecidableEq O] [DecidableEq I] in
theorem eq_of_unique (hc : c.category = .unique) (hd : d.category = .unique)
    (hsource : c.source = d.source) : c = d := by
  obtain ⟨c, source⟩ := c
  obtain ⟨d, source'⟩ := d
  obtain rfl : source = source' := hsource
  cases c <;> first | cases hc; done | cases d <;> first | rfl | cases hd

omit [DecidableEq O] [DecidableEq I] in
theorem category_eq_unique (h : c.description.scope = .allInstancesOfTypeOrSubtypes) :
    c.category = .unique := by
  obtain ⟨d, s⟩ := c
  cases d <;> first | rfl | cases h

theorem filter_eraseP_self {α : Type*} (p : α → Bool) (l : List α) :
    (l.eraseP p).filter p = (l.filter p).tail := by
  induction l with
  | nil => rfl
  | cons a l ih =>
    by_cases ha : p a = true
    · rw [eraseP_cons_of_pos ha, filter_cons_of_pos ha, tail_cons]
    · rw [eraseP_cons_of_neg ha, filter_cons_of_neg ha, filter_cons_of_neg ha, ih]

def keep (caps : Capabilities O I) (kept : Option (CapabilityConstraint O I))
    (c : CapabilityConstraint O I) : Option (CapabilityConstraint O I) :=
  match kept with
  | none => some c
  | some d =>
    if c.source.interface ∈ caps.interfaces.supertypesTransitive d.source.interface then some c
    else some d

theorem filter_unique_addConstraint {kept : Option (CapabilityConstraint O I)}
    (h : cs.filter (fun c => decide (c.category = .unique)) = kept.toList)
    (c : CapabilityConstraint O I) :
    (caps.addConstraint own cs c).filter (fun c => decide (c.category = .unique)) =
      (if c.category = .unique then caps.keep kept c else kept).toList := by
  by_cases hcat : c.category = .unique
  · have hscope : c.description.scope = .allInstancesOfTypeOrSubtypes := by
      obtain ⟨d, s⟩ := c
      cases d <;> first | rfl | cases hcat
    rw [if_pos hcat, addConstraint]
    simp only [hscope, hcat]
    cases hfind : cs.find? fun c => decide (c.category = .unique) with
    | none =>
      have hnil : cs.filter (fun c => decide (c.category = .unique)) = [] := by
        rw [filter_eq_nil_iff]
        exact find?_eq_none.mp hfind
      obtain rfl : kept = none := by
        rw [hnil] at h
        cases kept
        · rfl
        · cases h
      simp [filter_append, hnil, hcat, keep]
    | some d =>
      obtain rfl : kept = some d := by
        rw [← head?_filter, h] at hfind
        cases kept with
        | none => cases hfind
        | some e => simpa using hfind
      dsimp only [keep]
      split_ifs with hsuper
      · have herase : (cs.eraseP fun c => decide (c.category = .unique)).filter
            (fun c => decide (c.category = .unique)) = [] := by
          rw [filter_eraseP_self, h]
          rfl
        simp [filter_append, herase, hcat]
      · exact h
  · have hadd : (cs ++ [c]).filter (fun c => decide (c.category = .unique)) = kept.toList := by
      simpa [filter_append, hcat] using h
    rw [if_neg hcat, addConstraint]
    split
    · split_ifs
      · exact hadd
      · exact h
    · exact absurd (category_eq_unique (by assumption)) hcat
    all_goals exact hadd

theorem filter_unique_foldl (l : List (CapabilityConstraint O I)) :
    ∀ (cs : List (CapabilityConstraint O I)) (kept : Option (CapabilityConstraint O I)),
      cs.filter (fun c => decide (c.category = .unique)) = kept.toList →
      (l.foldl (caps.addConstraint own) cs).filter (fun c => decide (c.category = .unique)) =
        ((l.filter fun c => decide (c.category = .unique)).foldl caps.keep kept).toList := by
  induction l with
  | nil => exact fun _ _ h => h
  | cons c l ih =>
    intro cs kept h
    rw [foldl_cons, ih _ _ (filter_unique_addConstraint h c), filter_cons]
    simp only [decide_eq_true_eq]
    split_ifs with hc <;> rfl

def uniques (caps : Capabilities O I) (order : HashOrder (Capability O I)) (o : O) (i : I) :
    List (CapabilityConstraint O I) :=
  (caps.candidates order o i).filter fun c => decide (c.category = .unique)

theorem getConstraintUnique_eq (h : caps.Has o i) :
    caps.getConstraintUnique order o i = (caps.uniques order o i).foldl caps.keep none := by
  obtain ⟨own, hown⟩ := Option.isSome_iff_exists.mp (capabilityFor_isSome_iff.mpr h)
  rw [getConstraintUnique, ← head?_filter, getTypeCapabilityConstraints_eq hown,
    filter_unique_foldl _ [] none rfl, uniques]
  cases (List.foldl caps.keep none _) <;> rfl

omit [DecidableEq O] in
theorem mem_uniques : c ∈ caps.uniques order o i ↔ c.source ∈ caps.affecting o i ∧
      c ∈ caps.getCapabilityConstraints c.source ∧ c.category = .unique := by
  rw [uniques, mem_filter, mem_candidates, decide_eq_true_eq, and_assoc]

omit [DecidableEq O] in
theorem keep_foldl {l : List (CapabilityConstraint O I)}
    (hl : ∀ c ∈ l, c.source.interface ∈ caps.interfaces.chain i)
    (hd : d.source.interface ∈ caps.interfaces.chain i) :
    ∃ c, l.foldl caps.keep (some d) = some c ∧ (c = d ∨ c ∈ l) ∧
      c.source.interface ∈ caps.interfaces.chain d.source.interface ∧
      ∀ e ∈ l, c.source.interface ∈ caps.interfaces.chain e.source.interface := by
  induction l generalizing d with
  | nil => exact ⟨d, rfl, .inl rfl, self_mem_chain, by simp⟩
  | cons e l ih =>
    rw [foldl_cons, keep]
    have he := hl e mem_cons_self
    have hl' := fun c hc => hl c (mem_cons_of_mem e hc)
    split_ifs with hsuper
    · obtain ⟨c, hc, hmem, hce, hall⟩ := ih hl' he
      refine ⟨c, hc, ?_, chain_trans (mem_chain_of_mem hsuper) hce, forall_mem_cons.mpr ⟨hce, hall⟩⟩
      rcases hmem with rfl | hmem
      · exact .inr mem_cons_self
      · exact .inr (mem_cons_of_mem e hmem)
    · obtain ⟨c, hc, hmem, hcd, hall⟩ := ih hl' hd
      -- `e` is not above `d`, and both lie on one chain
      have hde : d.source.interface ∈ caps.interfaces.chain e.source.interface := by
        rcases chain_total hd he with h | h
        · exact h
        · rcases mem_chain_iff.mp h with h | h
          · rw [h]
            exact self_mem_chain
          · exact absurd h hsuper
      refine ⟨c, hc, hmem.imp_right (mem_cons_of_mem e), hcd,
        forall_mem_cons.mpr ⟨chain_trans hde hcd, hall⟩⟩

/-- The kept unique constraint is one of those that apply, with a topmost attribute type. -/
theorem getConstraintUnique_spec (h : caps.Has o i) (hd : d ∈ caps.uniques order o i) :
    ∃ c ∈ caps.uniques order o i, caps.getConstraintUnique order o i = some c ∧
      ∀ e ∈ caps.uniques order o i,
        c.source.interface ∈ caps.interfaces.chain e.source.interface := by
  rw [getConstraintUnique_eq h]
  have hl : ∀ c ∈ caps.uniques order o i, c.source.interface ∈ caps.interfaces.chain i :=
    fun c hc => (mem_affecting.mp (mem_uniques.mp hc).1).2.2
  revert hd hl
  cases caps.uniques order o i with
  | nil => exact fun hd => absurd hd not_mem_nil
  | cons e l =>
    intro _ hl
    obtain ⟨he, hl⟩ := forall_mem_cons.mp hl
    obtain ⟨c, hc, hmem, hce, hall⟩ := keep_foldl hl he
    exact ⟨c, mem_cons.mpr hmem, hc, forall_mem_cons.mpr ⟨hce, hall⟩⟩

theorem mem_of_getConstraintUnique (hc : caps.getConstraintUnique order o i = some c) :
    caps.Has o i ∧ c ∈ caps.uniques order o i := by
  by_cases h : caps.Has o i
  · refine ⟨h, ?_⟩
    have hne : caps.uniques order o i ≠ [] := by
      intro hnil
      rw [getConstraintUnique_eq h, hnil] at hc
      cases hc
    obtain ⟨d, hd⟩ := exists_mem_of_ne_nil _ hne
    obtain ⟨c', hc', heq, -⟩ := getConstraintUnique_spec h hd
    obtain rfl := Option.some.inj (heq.symm.trans hc)
    exact hc'
  · rw [getConstraintUnique, getTypeCapabilityConstraints_of_not_has h] at hc
    cases hc

end Lemmas
end Capabilities
end TypeDB.Concept
