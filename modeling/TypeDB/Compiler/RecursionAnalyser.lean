import Mathlib.Data.List.Dedup
import TypeDB.Foundations.DepthFirst

/-! The order in which functions are compiled and which of them are tabled: a depth-first search
along the calls gives the order and the functions that break cycles, a second one against the calls
the strongly connected components. -/

namespace TypeDB.Compiler

open DepthFirst List Relation

variable {F : Type}

/-- The functions to compile, with the ids of the calls in their pipelines. -/
structure ToCompile (F : Type) where
  ids : List F
  ids_nodup : ids.Nodup
  allCalls : F → List F

/-- The hash tables that are iterated. -/
inductive Table (F : Type)
  | toCompile
  | allCalledIds (fid : F)
  | forwardDependencies
  | dependencies (fid : F)
  | reverseDependencies (fid : F)

/-- An order of iteration for each table. -/
structure HashOrder (F : Type) where
  iter : Table F → List F → List F
  iter_perm : ∀ table l, (iter table l).Perm l

inductive FunctionTablingType (F : Type)
  | tabled (scc : F)
  | untabled

namespace RecursionAnalyser

section Model
variable [DecidableEq F] (fs : ToCompile F) (order : HashOrder F)

def allCalledIds (fid : F) : List F := (fs.allCalls fid).dedup.filter (· ∈ fs.ids)

/-- A function is entered at most once, so the searches are no deeper than there are functions. -/
def depth : Nat := fs.ids.length + 1

def collectDependencies : Search F (F → Option (List F)) :=
  labelling (fun fid => order.iter (.allCalledIds fid) (allCalledIds fs fid)) (allCalledIds fs)

def forwardDependencies : F → Option (List F) :=
  (order.iter .toCompile fs.ids).foldl ((collectDependencies fs order).visit (depth fs))
    fun _ => none

/-- The iteration over `forward_dependencies.get(fid).unwrap()`. -/
def dependencies (fid : F) : List F :=
  order.iter (.dependencies fid) ((forwardDependencies fs order fid).getD [])

structure PostOrder (F : Type) where
  postOrder : List F
  cycleBreakers : List F
  opened : List F
  closed : List F

def determinePostOrderAndCycleBreakersImpl (dependencies : F → List F) :
    Search F (PostOrder F) where
  next := dependencies
  seen s fid := fid ∈ s.closed || fid ∈ s.opened
  again fid s :=
    if fid ∈ s.closed then s else { s with cycleBreakers := s.cycleBreakers.insert fid }
  enter fid s := { s with opened := fid :: s.opened }
  leave fid s :=
    { s with opened := s.opened.erase fid, closed := fid :: s.closed,
             postOrder := s.postOrder ++ [fid] }

def determinePostOrderAndCycleBreakers : PostOrder F :=
  (order.iter .forwardDependencies
      (fs.ids.filter fun fid => (forwardDependencies fs order fid).isSome)).foldl
    ((determinePostOrderAndCycleBreakersImpl (dependencies fs order)).visit (depth fs))
    ⟨[], [], [], []⟩

def reverseDependencies (fid : F) : List F :=
  order.iter (.reverseDependencies fid) (fs.ids.filter (fid ∈ dependencies fs order ·))

def assignScc (root : F) : Search F (F → Option F) :=
  labelling (reverseDependencies fs order) fun _ => root

def sccMapping : F → Option F :=
  (determinePostOrderAndCycleBreakers fs order).postOrder.reverse.foldl
    (fun mapping root => (assignScc fs order root).visit (depth fs) mapping root) fun _ => none

def tablingTypes (fid : F) : Option (FunctionTablingType F) :=
  (sccMapping fs order fid).map fun scc =>
    if fid ∈ (determinePostOrderAndCycleBreakers fs order).cycleBreakers then .tabled scc
    else .untabled

def determineCompilationOrderAndTablingTypes : List F × (F → Option (FunctionTablingType F)) :=
  ((determinePostOrderAndCycleBreakers fs order).postOrder, tablingTypes fs order)

end Model

/-- One function of those to compile calls another one. -/
def Calls (fs : ToCompile F) (caller callee : F) : Prop :=
  caller ∈ fs.ids ∧ callee ∈ fs.allCalls caller ∧ callee ∈ fs.ids

section Search
variable {next : F → List F} {starts : List F} {s t : PostOrder F} {fid : F}

structure Ok (next : F → List F) (s : PostOrder F) : Prop where
  closed_iff : ∀ f, f ∈ s.closed ↔ f ∈ s.postOrder
  nodup : (s.opened ++ s.postOrder).Nodup
  leads : ∀ f ∈ s.postOrder, ∀ g ∈ next f, g ∈ s.postOrder ∨ g ∈ s.opened
  blocks : Blocks next s.opened s.postOrder
  breaks : ∀ rem f done, s.postOrder = rem ++ f :: done → ∀ g ∈ next f,
    g ∈ rem ∨ g ∈ s.cycleBreakers

structure Visits (next : F → List F) (starts : List F) (s t : PostOrder F) : Prop where
  ok : Ok next t
  opened : t.opened = s.opened
  breakers : s.cycleBreakers ⊆ t.cycleBreakers
  post : ∃ below, t.postOrder = s.postOrder ++ below ∧
    ∀ f ∈ below, ∃ g ∈ starts, ReflTransGen (Edge next) g f
  start : ∀ f ∈ starts, f ∈ t.postOrder ∨ f ∈ t.opened ∧ f ∈ t.cycleBreakers

theorem Visits.of_each (hs : Ok next s)
    (h : Each (fun f => Visits next [f]) starts s t) : Visits next starts s t := by
  induction h with
  | nil s => exact ⟨hs, rfl, List.Subset.refl _, ⟨[], by simp⟩, by simp⟩
  | @cons f l s t u hfirst _ ih =>
    obtain ⟨hok, hopened, hbreakers, ⟨below, hpost, hbelow⟩, hstart⟩ := hfirst
    obtain ⟨hok', hopened', hbreakers', ⟨below', hpost', hbelow'⟩, hstart'⟩ := ih hok
    refine ⟨hok', hopened'.trans hopened, List.Subset.trans hbreakers hbreakers',
      ⟨below ++ below', by rw [hpost', hpost, append_assoc], fun g hg => ?_⟩, fun g hg => ?_⟩
    · rcases mem_append.mp hg with hg | hg
      · obtain ⟨x, hx, hpath⟩ := hbelow g hg
        rw [mem_singleton.mp hx] at hpath
        exact ⟨f, mem_cons_self .., hpath⟩
      · obtain ⟨x, hx, hpath⟩ := hbelow' g hg
        exact ⟨x, mem_cons_of_mem f hx, hpath⟩
    · rcases mem_cons.mp hg with rfl | hg
      · rw [hpost', hopened']
        rcases hstart g (mem_cons_self ..) with h | h
        · exact .inl (mem_append_left _ h)
        · exact .inr ⟨h.1, hbreakers' h.2⟩
      · exact hstart' g hg

theorem snoc_cases {l rem done : List F} {f a : F} (h : l ++ [f] = rem ++ a :: done) :
    (rem = l ∧ a = f ∧ done = []) ∨ ∃ done', done = done' ++ [f] ∧ l = rem ++ a :: done' := by
  rcases eq_nil_or_concat done with rfl | ⟨done', x, rfl⟩
  · obtain ⟨rfl, hx⟩ := append_inj' h rfl
    exact .inl ⟨rfl, (singleton_inj.mp hx).symm, rfl⟩
  · rw [concat_eq_append, ← cons_append, ← append_assoc] at h
    obtain ⟨rfl, hx⟩ := append_inj' h rfl
    exact .inr ⟨done', by simp [singleton_inj.mp hx], rfl⟩

theorem Ok.enter (h : Ok next s) (hclosed : fid ∉ s.closed) (hopened : fid ∉ s.opened) :
    Ok next { s with opened := fid :: s.opened } where
  closed_iff := h.closed_iff
  nodup := nodup_cons.mpr ⟨by simp [hopened, ← h.closed_iff, hclosed], h.nodup⟩
  leads f hf g hg := (h.leads f hf g hg).imp_right (mem_cons_of_mem fid)
  blocks rem f done hpost := by
    obtain ⟨earlier, below, hrem, hbelow, hearlier⟩ := h.blocks rem f done hpost
    exact ⟨earlier, below, hrem, hbelow, fun b hb c hc =>
      (hearlier b hb c hc).imp_right (Or.imp_right (mem_cons_of_mem fid))⟩
  breaks := h.breaks

/-- The function goes behind what it led to; nothing that was finished before leads to these. -/
theorem Ok.leave [DecidableEq F] (hs : Ok next s)
    (h : Visits next (next fid) { s with opened := fid :: s.opened } t) :
    Visits next [fid] s { t with opened := t.opened.erase fid, closed := fid :: t.closed,
                                 postOrder := t.postOrder ++ [fid] } := by
  obtain ⟨hok, hopened, hbreakers, ⟨below, hpost, hbelow⟩, hstart⟩ := h
  obtain ⟨post, cycleBreakers, opened, closed⟩ := t
  obtain ⟨hclosed, hnodup, hleads, hblocks, hbreaks⟩ := hok
  simp only at *
  subst hopened
  have hreach : ∀ f ∈ below, ReflTransGen (Edge next) fid f := by
    intro f hf
    obtain ⟨g, hg, hpath⟩ := hbelow f hf
    exact .head hg hpath
  refine ⟨⟨?_, ?_, ?_, ?_, ?_⟩, by simp, hbreakers, ⟨below ++ [fid], ?_, ?_⟩, by simp⟩
  · intro f
    simp [hclosed, or_comm]
  · rw [erase_cons_head, ← append_assoc]
    exact (perm_append_singleton fid _).nodup_iff.mpr hnodup
  · intro f hf g hg
    have hled : g ∈ post ∨ g ∈ fid :: s.opened := by
      rcases mem_append.mp hf with hf | hf
      · exact hleads f hf g hg
      · exact (hstart g (mem_singleton.mp hf ▸ hg)).imp_right And.left
    simp only [mem_append, mem_cons, erase_cons_head] at hled ⊢
    tauto
  · intro rem f done hsplit
    rcases snoc_cases hsplit with ⟨rfl, rfl, rfl⟩ | ⟨done, rfl, rfl⟩
    · refine ⟨s.postOrder, below, hpost, hreach, fun b hb c hc => ?_⟩
      rw [erase_cons_head]
      exact (hs.leads b hb c hc).imp_right .inr
    · obtain ⟨earlier, below, hrem, hbelow, hearlier⟩ := hblocks rem f done rfl
      refine ⟨earlier, below, hrem, hbelow, fun b hb c hc => ?_⟩
      have := hearlier b hb c hc
      simp only [mem_append, mem_cons, erase_cons_head] at this ⊢
      tauto
  · intro rem f done hsplit g hg
    rcases snoc_cases hsplit with ⟨rfl, rfl, rfl⟩ | ⟨done, rfl, rfl⟩
    · exact (hstart g hg).imp_right And.right
    · exact hbreaks rem f done rfl g hg
  · rw [hpost, append_assoc]
  · intro f hf
    refine ⟨fid, mem_cons_self .., ?_⟩
    rcases mem_append.mp hf with hf | hf
    · exact hreach f hf
    · rw [mem_singleton.mp hf]

theorem Ok.again [DecidableEq F] (hs : Ok next s) (h : fid ∈ s.closed ∨ fid ∈ s.opened) :
    Visits next [fid] s (if fid ∈ s.closed then s else
      { s with cycleBreakers := s.cycleBreakers.insert fid }) := by
  split_ifs with hclosed
  · exact ⟨hs, rfl, List.Subset.refl _, ⟨[], by simp⟩, by simp [← hs.closed_iff, hclosed]⟩
  · have hsub : s.cycleBreakers ⊆ s.cycleBreakers.insert fid := subset_insert _ _
    refine ⟨⟨hs.closed_iff, hs.nodup, hs.leads, hs.blocks, fun rem f done hpost g hg => ?_⟩, rfl,
      hsub, ⟨[], by simp⟩, ?_⟩
    · exact (hs.breaks rem f done hpost g hg).imp_right (hsub ·)
    · simp [h.resolve_left hclosed]

theorem impl_keeps [DecidableEq F] {V : Finset F} (hV : ∀ f ∈ V, ∀ g ∈ next f, g ∈ V) :
    (determinePostOrderAndCycleBreakersImpl next).Keeps V (Ok next) fun f => Visits next [f] where
  next_mem := hV
  entered f s g := by
    simp [determinePostOrderAndCycleBreakersImpl, or_left_comm]
  enter f _ s hs hseen := by
    simp only [determinePostOrderAndCycleBreakersImpl, Bool.or_eq_false_iff,
      decide_eq_false_iff_not]
      at hseen
    exact hs.enter hseen.1 hseen.2
  again f s hs hseen := hs.again (by simpa [determinePostOrderAndCycleBreakersImpl] using hseen)
  leave f _ s t hs hseen h := by
    simp only [determinePostOrderAndCycleBreakersImpl, Bool.or_eq_false_iff,
      decide_eq_false_iff_not]
      at hseen
    exact hs.leave (.of_each (hs.enter hseen.1 hseen.2) h)
  keeps f s t hs h := by
    refine ⟨h.ok, fun g hg => ?_⟩
    obtain ⟨below, hpost, -⟩ := h.post
    simp only [determinePostOrderAndCycleBreakersImpl, Bool.or_eq_true, decide_eq_true_eq,
      hs.closed_iff, h.ok.closed_iff, h.opened, hpost, mem_append] at hg ⊢
    tauto

end Search

section Result
variable [DecidableEq F] (fs : ToCompile F) (order : HashOrder F) {f g : F}

omit [DecidableEq F] in
theorem mem_iter {table : Table F} {l : List F} {f : F} : f ∈ order.iter table l ↔ f ∈ l :=
  (order.iter_perm table l).mem_iff

theorem card_lt_depth : fs.ids.toFinset.card < depth fs :=
  Nat.lt_succ_of_le (toFinset_card_le _)

theorem forwardDependencies_eq (f : F) :
    forwardDependencies fs order f = if f ∈ fs.ids then some (allCalledIds fs f) else none := by
  have hnext : ∀ f ∈ fs.ids.toFinset, ∀ g ∈ order.iter (.allCalledIds f) (allCalledIds fs f),
      g ∈ fs.ids.toFinset := by
    intro f _ g hg
    rw [mem_iter, allCalledIds, mem_filter] at hg
    simpa using hg.2
  have hstarts : ∀ f ∈ order.iter .toCompile fs.ids, f ∈ fs.ids.toFinset := by
    simp [mem_iter]
  have hlabels : Labels (fun f => order.iter (.allCalledIds f) (allCalledIds fs f))
      (allCalledIds fs) (order.iter .toCompile fs.ids) (fun _ => none)
      (forwardDependencies fs order) :=
    .of_each ((labelling_keeps hnext).visitAll (card_lt_depth fs) _ trivial hstarts)
  split_ifs with hf
  · exact (hlabels.new f rfl (hlabels.start f (by rwa [mem_iter]))).1
  · by_contra hne
    obtain ⟨-, g, hg, -, hpath⟩ := hlabels.new f rfl hne
    exact hf (by simpa using mem_of_reach (fun a ha b hb => hnext a ha b hb.1) hpath (hstarts g hg))

theorem mem_dependencies : g ∈ dependencies fs order f ↔ Calls fs f g := by
  rw [dependencies, mem_iter, forwardDependencies_eq, Calls]
  split_ifs with hf
  · simp [hf, allCalledIds]
  · simp [hf]

theorem edge_dependencies : Edge (dependencies fs order) = Calls fs := by
  funext f g
  exact propext (mem_dependencies fs order)

theorem mem_reverseDependencies :
    g ∈ reverseDependencies fs order f ↔ f ∈ dependencies fs order g := by
  rw [reverseDependencies, mem_iter, mem_filter, decide_eq_true_iff]
  exact and_iff_right_of_imp fun h => ((mem_dependencies fs order).mp h).1

theorem dependencies_mem :
    ∀ f ∈ fs.ids.toFinset, ∀ g ∈ dependencies fs order f, g ∈ fs.ids.toFinset := by
  intro f _ g hg
  simpa using ((mem_dependencies fs order).mp hg).2.2

theorem visits_all : Visits (dependencies fs order)
    (order.iter .forwardDependencies
      (fs.ids.filter fun fid => (forwardDependencies fs order fid).isSome))
    ⟨[], [], [], []⟩ (determinePostOrderAndCycleBreakers fs order) := by
  have hinit : Ok (dependencies fs order) ⟨[], [], [], []⟩ :=
    ⟨by simp, by simp, by simp, by simp [Blocks], by simp⟩
  refine .of_each hinit
    ((impl_keeps (dependencies_mem fs order)).visitAll (card_lt_depth fs) _ hinit ?_)
  intro f hf
  rw [mem_iter, mem_filter] at hf
  simpa using hf.1

def postOrder : List F := (determinePostOrderAndCycleBreakers fs order).postOrder

theorem mem_postOrder {f : F} : f ∈ postOrder fs order ↔ f ∈ fs.ids := by
  have h := visits_all fs order
  constructor
  · intro hf
    obtain ⟨below, hpost, hbelow⟩ := h.post
    rw [postOrder, hpost] at hf
    obtain ⟨g, hg, hpath⟩ := hbelow f hf
    rw [mem_iter, mem_filter] at hg
    simpa using mem_of_reach (dependencies_mem fs order) hpath (by simpa using hg.1)
  · intro hf
    have hstart := h.start f (by simp [mem_iter, forwardDependencies_eq, hf])
    rw [h.opened] at hstart
    simpa [postOrder] using hstart

theorem postOrder_nodup : (postOrder fs order).Nodup :=
  (nodup_append.mp (visits_all fs order).ok.nodup).2.1

/-- The blocks of the order: with nothing open any more. -/
theorem postOrder_blocks : Blocks (dependencies fs order) [] (postOrder fs order) := by
  have h := visits_all fs order
  simpa [h.opened, postOrder] using h.ok.blocks

theorem callee_before_or_reaches (h : Calls fs f g) :
    [g, f].Sublist (postOrder fs order) ∨ ReflTransGen (Calls fs) g f := by
  have hnodup := postOrder_nodup fs order
  obtain ⟨rem, done, hpost⟩ := append_of_mem ((mem_postOrder fs order).mpr h.2.2)
  obtain ⟨earlier, below, rfl, hbelow, hearlier⟩ := postOrder_blocks fs order rem g done hpost
  have hf := (mem_postOrder fs order).mpr h.1
  rw [edge_dependencies] at hbelow
  rw [hpost] at hf hnodup ⊢
  simp only [mem_append, mem_cons] at hf
  rcases hf with (hf | hf) | rfl | hf
  · -- from what was finished before no call leads to the function itself
    have hg := hearlier f hf g ((mem_dependencies fs order).mpr h)
    rw [nodup_middle, nodup_cons] at hnodup
    simp only [mem_append, not_or, not_mem_nil, or_false] at hnodup hg
    tauto
  · exact .inr (hbelow f hf)
  · exact .inr .refl
  · exact .inl (((singleton_sublist.mpr hf).cons_cons g).trans (sublist_append_right _ _))

theorem components_sccMapping : Components (dependencies fs order) (sccMapping fs order) ∧
    ∀ f ∈ fs.ids, sccMapping fs order f ≠ none := by
  have hprev : ∀ f ∈ fs.ids.toFinset, ∀ g ∈ reverseDependencies fs order f,
      g ∈ fs.ids.toFinset := by
    intro f _ g hg
    rw [mem_reverseDependencies, mem_dependencies] at hg
    simpa using hg.1
  have hvisit : ∀ m, ∀ r ∈ postOrder fs order,
      Labels (reverseDependencies fs order) (fun _ => r) [r] m
        ((assignScc fs order r).visit (depth fs) m r) := by
    intro m r hr
    refine Labels.of_each ((labelling_keeps hprev).visitAll (card_lt_depth fs) [r] trivial ?_)
    simpa [← mem_postOrder fs order] using hr
  obtain ⟨hcomponents, hall⟩ := Components.foldl (postOrder_blocks fs order)
    (postOrder_nodup fs order) (fun _ _ => mem_reverseDependencies fs order)
    (fun a b h => (mem_postOrder fs order).mpr ((mem_dependencies fs order).mp h).1) hvisit
    (append_nil _).symm (m := fun _ => none) (by simp [Components]) (by simp)
  exact ⟨hcomponents, fun f hf => hall f ((mem_postOrder fs order).mpr hf)⟩

/-- Along calls to functions that break no cycle, functions come earlier and earlier. -/
theorem idxOf_lt_of_calls (h : Calls fs f g)
    (hg : g ∉ (determinePostOrderAndCycleBreakers fs order).cycleBreakers) :
    (postOrder fs order).idxOf g < (postOrder fs order).idxOf f := by
  have hnodup := postOrder_nodup fs order
  obtain ⟨rem, done, hpost⟩ := append_of_mem ((mem_postOrder fs order).mpr h.1)
  have hrem := ((visits_all fs order).ok.breaks rem f done hpost g
    ((mem_dependencies fs order).mpr h)).resolve_right hg
  rw [hpost, nodup_middle, nodup_cons, mem_append, not_or] at hnodup
  rw [hpost, idxOf_append_of_mem hrem, idxOf_append_of_notMem hnodup.1.1]
  exact (idxOf_lt_length_of_mem hrem).trans_le (Nat.le_add_right _ _)

theorem tablingTypes_eq_tabled {f c : F} : tablingTypes fs order f = some (.tabled c) ↔
    sccMapping fs order f = some c ∧
      f ∈ (determinePostOrderAndCycleBreakers fs order).cycleBreakers := by
  rw [tablingTypes, Option.map_eq_some_iff]
  split_ifs with hf
  · simp [hf]
  · simp [hf]

/-- Each function is compiled once, and after what it calls except in recursion; every recursion
goes through a tabled function; tabled functions are in one component if they call each other. -/
theorem determines_order_and_tabling :
    ((determineCompilationOrderAndTablingTypes fs order).1.Nodup ∧
      ∀ f, f ∈ (determineCompilationOrderAndTablingTypes fs order).1 ↔ f ∈ fs.ids) ∧
    (∀ f g, Calls fs f g →
      [g, f].Sublist (determineCompilationOrderAndTablingTypes fs order).1 ∨
        ReflTransGen (Calls fs) g f) ∧
    (∀ f, ¬ TransGen (fun f g => Calls fs f g ∧ ∀ scc,
      (determineCompilationOrderAndTablingTypes fs order).2 g ≠ some (.tabled scc)) f f) ∧
    ∀ f g c d, (determineCompilationOrderAndTablingTypes fs order).2 f = some (.tabled c) →
      (determineCompilationOrderAndTablingTypes fs order).2 g = some (.tabled d) →
      (c = d ↔ ReflTransGen (Calls fs) f g ∧ ReflTransGen (Calls fs) g f) := by
  obtain ⟨hcomponents, hall⟩ := components_sccMapping fs order
  refine ⟨⟨postOrder_nodup fs order, fun f => mem_postOrder fs order⟩,
    fun f g => callee_before_or_reaches fs order, fun f hcycle => ?_, fun f g c d hf hg => ?_⟩
  · have hlt {f g : F} (h : TransGen (fun f g => Calls fs f g ∧ ∀ scc,
        tablingTypes fs order g ≠ some (.tabled scc)) f g) :
        (postOrder fs order).idxOf g < (postOrder fs order).idxOf f := by
      have hcall {f g : F} (h : Calls fs f g)
          (hg : ∀ scc, tablingTypes fs order g ≠ some (.tabled scc)) :=
        idxOf_lt_of_calls fs order h fun hmem => by
          obtain ⟨scc, hscc⟩ := Option.ne_none_iff_exists'.mp (hall g h.2.2)
          exact hg scc ((tablingTypes_eq_tabled fs order).mpr ⟨hscc, hmem⟩)
      induction h with
      | single h => exact hcall h.1 h.2
      | tail _ h ih => exact (hcall h.1 h.2).trans ih
    exact lt_irrefl _ (hlt hcycle)
  · have hiff := hcomponents.eq_iff ((tablingTypes_eq_tabled fs order).mp hf).1
      ((tablingTypes_eq_tabled fs order).mp hg).1
    rwa [Mutual, edge_dependencies] at hiff

end Result

end RecursionAnalyser

end TypeDB.Compiler
