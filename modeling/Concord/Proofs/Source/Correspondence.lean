import Concord.Proofs.Source.KeyedCalls
import Mathlib.Data.List.Perm.Subperm

/-!
# Call sites and calls, one to one

The call sites of a text are those of the calls in its tree that the search admits: one for each of
these calls, wherever in the tree it is, in the order in which their literals stand
(`extract_corresponds`). Every node of a tree has one place in the list of its nodes, so two calls
have two literals (`Tree.subperm_filterMap_key?`), and where these do not overlap, the locations are
in the order of the literals and no two are the same. Sorting by location and dropping repetitions
thus loses and merges nothing.

So the call sites are exactly those of the calls that count if and only if the search admits no
other ones and misses none of them.
-/

namespace Concord.Source

open Text

/-! ### The nodes of a tree, each once -/

namespace Tree

/-- **The children of all nodes are all nodes but the root**, each as often as it occurs. -/
theorem cons_flatMap_children_perm (t : Tree) :
    (t :: t.subtrees.flatMap children).Perm t.subtrees := by
  have hbelow : ∀ c ∈ t.children, (c :: c.subtrees.flatMap children).Perm c.subtrees := by
    intro c hc
    have := sizeOf_lt_of_mem_children hc
    exact cons_flatMap_children_perm c
  have hchildren : (t.children ++ t.children.flatMap fun c => c.subtrees.flatMap children).Perm
      (t.children.flatMap fun c => c :: c.subtrees.flatMap children) := by
    have h := List.flatMap_append_perm t.children (fun c => [c])
      fun c => c.subtrees.flatMap children
    rwa [List.flatMap_singleton'] at h
  rw [subtrees_eq_cons, List.flatMap_cons, List.flatMap_assoc]
  exact (hchildren.trans (List.Perm.flatMap_left t.children hbelow)).cons t
termination_by sizeOf t

/-- What is picked among the children of each node are nodes, each picked once. -/
theorem subperm_filterMap (pick : Tree → Option Tree)
    (hpick : ∀ t u, pick t = some u → u ∈ t.children) (t : Tree) :
    (t.subtrees.filterMap pick).Subperm t.subtrees := by
  have hsublist : ∀ ts : List Tree, (ts.filterMap pick).Sublist (ts.flatMap children) := by
    intro ts
    induction ts with
    | nil => exact List.Sublist.slnil
    | cons u us ih =>
      rw [List.flatMap_cons]
      cases hu : pick u with
      | none =>
        rw [List.filterMap_cons_none hu]
        exact ih.trans (List.sublist_append_right _ _)
      | some v =>
        rw [List.filterMap_cons_some hu]
        exact (List.singleton_sublist.2 (hpick u v hu)).append ih
  have hbelow : (t.subtrees.filterMap pick).Sublist (t :: t.subtrees.flatMap children) :=
    (hsublist t.subtrees).trans (List.sublist_cons_self t _)
  exact hbelow.subperm.trans (cons_flatMap_children_perm t).subperm

/-- What is picked once, and then again among the children of what was picked, is picked once. -/
theorem subperm_filterMap_bind {first : Tree → Option Tree} {t : Tree}
    (hfirst : (t.subtrees.filterMap first).Subperm t.subtrees) {pick : Tree → Option Tree}
    (hpick : ∀ t u, pick t = some u → u ∈ t.children) :
    (t.subtrees.filterMap fun u => (first u).bind pick).Subperm t.subtrees := by
  obtain ⟨picked, hperm, hsublist⟩ := hfirst
  rw [← List.filterMap_filterMap]
  exact ((hperm.symm.filterMap pick).subperm.trans (hsublist.filterMap pick).subperm).trans
    (subperm_filterMap pick hpick t)

/-- **Every node is the first argument of one call at most.** -/
theorem subperm_filterMap_key? (p : CallPattern) (t : Tree) :
    (t.subtrees.filterMap p.key?).Subperm t.subtrees := by
  have harguments := subperm_filterMap p.arguments?
    (fun _ _ h => mem_children_of_child? (Option.filter_eq_some_iff.1 h).1) t
  have hfirst := subperm_filterMap_bind harguments fun a u (h : a.children.head? = some u) =>
    List.mem_of_head? h
  cases hargument : p.argument with
  | none =>
    have hvalue : p.value? = some := funext fun _ => by rw [CallPattern.value?, hargument]
    have hkey : p.key? = fun u => (p.arguments? u).bind fun a => a.children.head? :=
      funext fun _ => by rw [CallPattern.key?, hvalue, Option.bind_fun_some]
    exact hkey ▸ hfirst
  | some kind =>
    refine subperm_filterMap_bind hfirst fun a u h => ?_
    rw [CallPattern.value?, hargument] at h
    exact List.mem_of_head? (Option.ite_none_right_eq_some.1 h).2

end Tree

/-! ### Literals and locations -/

section Search

variable {language : CodeLanguage} {file : String} {source : List Char} {functions : List String}
  {tree : Tree} {k l : KeyedCall}

/-- **The location of a literal that stands before another comes before its location.** -/
theorem Candidate.location_lt (file : String) (hk : Candidate language source k)
    (hl : Candidate language source l)
    (h : k.literal.bytes.stop ≤ l.literal.bytes.start) :
    compare (k.site file source).location (l.site file source).location = .lt := by
  obtain ⟨-, rules, -, -, hparsed⟩ := hk.taken
  obtain ⟨-, rules', -, -, hparsed'⟩ := hl.taken
  obtain ⟨inner, -, hinner, -, hstop, -⟩ := exists_slices_of_parse? hparsed
  obtain ⟨inner', -, hinner', hstart, -, -⟩ := exists_slices_of_parse? hparsed'
  obtain ⟨hm, hn, hmn⟩ := isBoundary_of_slice? hinner
  obtain ⟨hm', hn', hmn'⟩ := isBoundary_of_slice? hinner'
  have hplace := positionAt_lt hm hm' (by omega)
  rw [KeyedCall.site, KeyedCall.site, siteAt, siteAt, rangeOf_eq hm hn hmn,
    rangeOf_eq hm' hn' hmn']
  exact Location.compare_eq_lt file hplace

/-- The literals of a tree that may be keys. -/
def Tree.keyLiterals (language : CodeLanguage) (source : List Char) (tree : Tree) : List Tree :=
  tree.subtrees.filter fun t => (literalRules? language source t).isSome

/-- The literal that is the first argument of a call, if it may be a key. -/
def Tree.keyLiteral? (language : CodeLanguage) (source : List Char) (t : Tree) : Option Tree :=
  ((callPattern language).key? t).filter fun u => (literalRules? language source u).isSome

/-- The calls of a tree with a literal that may be a key. -/
def Tree.keyed (language : CodeLanguage) (source : List Char) (tree : Tree) : List (Tree × Tree) :=
  tree.subtrees.filterMap fun t => (t.keyLiteral? language source).map fun u => (t, u)

/-- **Different calls have different literals**, which lie apart if all do. -/
theorem Tree.pairwise_keyed (h : (tree.keyLiterals language source).Pairwise Apart) :
    (tree.keyed language source).Pairwise fun p q => p.2.Apart q.2 := by
  have hliterals : (tree.keyed language source).map Prod.snd =
      (tree.subtrees.filterMap (callPattern language).key?).filter
        fun u => (literalRules? language source u).isSome := by
    rw [keyed, List.map_filterMap, List.filter_filterMap]
    simp only [Option.map_map, Function.comp_def, Option.map_id', keyLiteral?]
  obtain ⟨literals, hperm, hsublist⟩ : ((tree.keyed language source).map Prod.snd).Subperm
      (tree.keyLiterals language source) :=
    hliterals ▸ (subperm_filterMap_key? (callPattern language) tree).filter _
  have happart := (hperm.pairwise_iff (fun {_ _} => Std.Symm.symm _ _)).1 (h.sublist hsublist)
  exact List.pairwise_map.1 happart

/-- A candidate has a literal that may be a key, if the literal is static where that is looked
for. -/
theorem Candidate.keyLiteral?_eq (h : Candidate language source k)
    (hstatic : (vocabulary language).literal .template = some k.literal.kind ∨ language = .python →
      k.literal.IsStatic (vocabulary language)) :
    k.call.keyLiteral? language source = some k.literal := by
  obtain ⟨kind, rules, hkind, hdelimiters, -⟩ := h.taken
  have hrules := literalRules?_eq_some_iff.2 ⟨⟨kind, hkind, hdelimiters⟩, h.noLead, hstatic⟩
  exact Option.filter_eq_some_iff.2 ⟨key?_eq_some_iff.2 h.argument, by rw [hrules]; rfl⟩

theorem Tree.mem_keyed (hcall : k.call ∈ tree.subtrees)
    (h : k.call.keyLiteral? language source = some k.literal) :
    (k.call, k.literal) ∈ tree.keyed language source :=
  List.mem_filterMap.2 ⟨k.call, hcall, by rw [h]; rfl⟩

/-- **Where literals lie apart, a location tells the call.** -/
theorem Candidate.eq_of_location_eq (hk : Candidate language source k)
    (hl : Candidate language source l)
    (hapart : (tree.keyLiterals language source).Pairwise Tree.Apart)
    (hmem : (k.call, k.literal) ∈ tree.keyed language source)
    (hmem' : (l.call, l.literal) ∈ tree.keyed language source)
    (h : (k.site file source).location = (l.site file source).location) : k = l := by
  by_cases hcall : k.call = l.call
  · exact hk.eq_of_call_eq hl hcall
  · have hne : (k.call, k.literal) ≠ (l.call, l.literal) := fun heq => hcall (congrArg Prod.fst heq)
    have hsymm : Std.Symm fun p q : Tree × Tree => p.2.Apart q.2 := ⟨fun _ _ => Or.symm⟩
    have hself : compare (k.site file source).location (k.site file source).location = .eq :=
      Std.ReflCmp.compare_self
    rcases (Tree.pairwise_keyed hapart).forall hmem hmem' hne with hbefore | hbefore
    · have hlt := hk.location_lt file hl hbefore
      rw [← h, hself] at hlt
      cases hlt
    · have hlt := hl.location_lt file hk hbefore
      rw [← h, hself] at hlt
      cases hlt

/-- The calls that the search finds, in the order of the tree. -/
def keyedCalls (language : CodeLanguage) (source : List Char) (functions : List String)
    (tree : Tree) : List KeyedCall :=
  tree.subtrees.filterMap (keyedCall? language source functions)

theorem mem_keyedCalls :
    k ∈ keyedCalls language source functions tree ↔
      k.call ∈ tree.subtrees ∧ Admitted language source functions k := by
  simp only [keyedCalls, List.mem_filterMap, keyedCall?_eq_some_iff]
  constructor
  · rintro ⟨t, ht, rfl, hk⟩
    exact ⟨ht, hk⟩
  · rintro ⟨ht, hk⟩
    exact ⟨k.call, ht, rfl, hk⟩

/-- What is kept of a list grows with what keeps it. -/
theorem filterMap_sublist_filterMap {α β : Type} {f g : α → Option β}
    (h : ∀ a b, f a = some b → g a = some b) (l : List α) :
    (l.filterMap f).Sublist (l.filterMap g) := by
  induction l with
  | nil => exact List.Sublist.slnil
  | cons a rest ih =>
    cases ha : f a with
    | none =>
      rw [List.filterMap_cons_none ha, List.filterMap_cons]
      split
      · exact ih
      · exact ih.cons _
    | some b =>
      rw [List.filterMap_cons_some ha, List.filterMap_cons_some (h a b ha)]
      exact ih.cons_cons b

/-- The literals that are found lie apart if all do. -/
theorem pairwise_apart_keyedCalls (h : (tree.keyLiterals language source).Pairwise Tree.Apart) :
    (keyedCalls language source functions tree).Pairwise fun k l => k.literal.Apart l.literal := by
  have hkeyed : ∀ t p, (keyedCall? language source functions t).map
        (fun k => (k.call, k.literal)) = some p →
      (t.keyLiteral? language source).map (fun u => (t, u)) = some p := by
    intro t p hp
    obtain ⟨k, hk, rfl⟩ := Option.map_eq_some_iff.1 hp
    obtain ⟨rfl, hadmitted⟩ := keyedCall?_eq_some_iff.1 hk
    rw [hadmitted.keyLiteral?_eq hadmitted.isStatic]
    rfl
  have hsublist : ((keyedCalls language source functions tree).map
      fun k => (k.call, k.literal)).Sublist (tree.keyed language source) := by
    rw [keyedCalls, List.map_filterMap]
    exact filterMap_sublist_filterMap hkeyed tree.subtrees
  have happart := (Tree.pairwise_keyed h).sublist hsublist
  rwa [List.pairwise_map] at happart

/-- The calls that the search finds, in the order of their locations. -/
def sortedCalls (language : CodeLanguage) (file : String) (source : List Char)
    (functions : List String) (tree : Tree) : List KeyedCall :=
  (keyedCalls language source functions tree).mergeSort fun k l =>
    (compare (k.site file source).location (l.site file source).location).isLE

theorem sortedCalls_perm (file : String) :
    (sortedCalls language file source functions tree).Perm
      (keyedCalls language source functions tree) :=
  List.mergeSort_perm _ _

/-- **Sorted by location, the literals are in their order in the text.** -/
theorem pairwise_sortedCalls (h : (tree.keyLiterals language source).Pairwise Tree.Apart) :
    (sortedCalls language file source functions tree).Pairwise fun k l =>
      k.literal.bytes.stop ≤ l.literal.bytes.start := by
  have happart : (sortedCalls language file source functions tree).Pairwise fun k l =>
      k.literal.Apart l.literal :=
    ((sortedCalls_perm file).pairwise_iff (fun {_ _} => Or.symm)).2 (pairwise_apart_keyedCalls h)
  have hordered := orderedBy_mergeSort (fun k => (KeyedCall.site file source k).location)
    (keyedCalls language source functions tree)
  refine (happart.and hordered).imp_of_mem ?_
  rintro k l hk hl ⟨hbefore | hafter, hle⟩
  · exact hbefore
  · have hk' := (mem_keyedCalls.1 ((sortedCalls_perm file).mem_iff.1 hk)).2
    have hl' := (mem_keyedCalls.1 ((sortedCalls_perm file).mem_iff.1 hl)).2
    have hlt := hl'.location_lt file hk'.toCandidate hafter
    rw [Std.OrientedCmp.gt_of_lt hlt] at hle
    exact absurd hle nofun

/-- **Nothing is lost or merged**: the call sites are those of the calls that are found. -/
theorem extract_eq_map {reader : Reader} (file : String)
    (htree : reader language source = some tree) (hfunctions : functions ≠ [])
    (h : (tree.keyLiterals language source).Pairwise Tree.Apart) :
    extract reader language file source functions =
      (sortedCalls language file source functions tree).map (KeyedCall.site file source) := by
  have hfound : tree.subtrees.filterMap (siteOf? language file source functions) =
      (keyedCalls language source functions tree).map (KeyedCall.site file source) := by
    rw [keyedCalls, List.map_filterMap]
    exact congrArg (fun f => tree.subtrees.filterMap f) (funext (siteOf?_eq_map file))
  have hincreasing : IncreasingBy CallSite.location
      ((sortedCalls language file source functions tree).map (KeyedCall.site file source)) := by
    refine List.pairwise_map.2 ((pairwise_sortedCalls h).imp_of_mem ?_)
    intro k l hk hl hbefore
    have hk' := (mem_keyedCalls.1 ((sortedCalls_perm file).mem_iff.1 hk)).2
    have hl' := (mem_keyedCalls.1 ((sortedCalls_perm file).mem_iff.1 hl)).2
    exact hk'.location_lt file hl'.toCandidate hbefore
  have hsorted : ((keyedCalls language source functions tree).map
        (KeyedCall.site file source)).mergeSort
        (fun a b => (compare a.location b.location).isLE) =
      (sortedCalls language file source functions tree).map (KeyedCall.site file source) := by
    rw [sortedCalls]
    exact (List.map_mergeSort (f := KeyedCall.site file source) fun _ _ _ _ => rfl).symm
  rw [extract, if_neg (by simpa using hfunctions), htree]
  dsimp only
  rw [sitesIn, hfound, hsorted, dropRepeats_eq_self hincreasing]

/-! ### One to one -/

open Classical in
/-- The nodes of a tree that are calls of which something holds. -/
noncomputable def Tree.callsWith (P : KeyedCall → Prop) (tree : Tree) : List Tree :=
  tree.subtrees.filter fun t => ∃ k, k.call = t ∧ P k

/-- Whether call sites correspond one to one to the calls of a tree of which something holds, in the
order in which their literals stand in the text. -/
def Corresponds (file : String) (source : List Char) (tree : Tree) (P : KeyedCall → Prop)
    (sites : List CallSite) : Prop :=
  ∃ found : List KeyedCall, (found.map KeyedCall.call).Perm (tree.callsWith P) ∧
    (∀ k ∈ found, P k) ∧
    (found.Pairwise fun k l => k.literal.bytes.stop ≤ l.literal.bytes.start) ∧
    sites = found.map (KeyedCall.site file source)

section Properties

variable {P Q : KeyedCall → Prop} {sites : List CallSite}

theorem Corresponds.length_eq (h : Corresponds file source tree P sites) :
    sites.length = (tree.callsWith P).length := by
  obtain ⟨found, hcalls, -, -, rfl⟩ := h
  rw [List.length_map, ← hcalls.length_eq, List.length_map]

theorem Tree.mem_callsWith {t : Tree} :
    t ∈ tree.callsWith P ↔ t ∈ tree.subtrees ∧ ∃ k, k.call = t ∧ P k := by
  simp [callsWith]

/-- Only what holds of the calls of the tree matters. -/
theorem Corresponds.congr (h : ∀ k, k.call ∈ tree.subtrees → (P k ↔ Q k))
    (hP : Corresponds file source tree P sites) : Corresponds file source tree Q sites := by
  obtain ⟨found, hcalls, hfound, hordered, rfl⟩ := hP
  have hsame : tree.callsWith P = tree.callsWith Q := by
    refine List.filter_congr fun t ht => decide_eq_decide.2 ?_
    refine exists_congr fun k => and_congr_right ?_
    rintro rfl
    exact h k ht
  refine ⟨found, hsame ▸ hcalls, fun k hk => ?_, hordered, rfl⟩
  have hcall : k.call ∈ tree.callsWith P := hcalls.mem_iff.1 (List.mem_map_of_mem hk)
  exact (h k (Tree.mem_callsWith.1 hcall).1).1 (hfound k hk)

/-- Where nothing counts, there is no call site. -/
theorem Corresponds.eq_nil (h : Corresponds file source tree P sites)
    (hP : ∀ k, k.call ∈ tree.subtrees → ¬P k) : sites = [] := by
  have hnone : tree.callsWith P = [] := by
    refine List.eq_nil_iff_forall_not_mem.2 fun t ht => ?_
    obtain ⟨ht, k, rfl, hk⟩ := Tree.mem_callsWith.1 ht
    exact hP k ht hk
  rw [← List.length_eq_zero_iff, h.length_eq, hnone, List.length_nil]

end Properties

/-- The calls that are found by looking at each node are those of which something holds, if this
tells which they are. -/
theorem map_call_filterMap {P : KeyedCall → Prop} {find : Tree → Option KeyedCall}
    (hfind : ∀ t k, find t = some k ↔ k.call = t ∧ P k) (tree : Tree) :
    (tree.subtrees.filterMap find).map KeyedCall.call = tree.callsWith P := by
  classical
  rw [List.map_filterMap, Tree.callsWith, ← List.filterMap_eq_filter]
  refine congrArg (fun f => tree.subtrees.filterMap f) (funext fun t => ?_)
  cases ht : find t with
  | none =>
    have hnone : ¬∃ k, k.call = t ∧ P k := by
      rintro ⟨k, hk⟩
      rw [(hfind t k).2 hk] at ht
      cases ht
    simp [Option.guard, hnone]
  | some k =>
    have hk := (hfind t k).1 ht
    have hsome : ∃ k, k.call = t ∧ P k := ⟨k, hk⟩
    simp [Option.guard, hsome, hk.1]

/-- **The call sites of a text are those of the calls that are admitted.** -/
theorem corresponds_admitted {reader : Reader} (file : String)
    (htree : reader language source = some tree) (hfunctions : functions ≠ [])
    (hapart : (tree.keyLiterals language source).Pairwise Tree.Apart) :
    Corresponds file source tree (Admitted language source functions)
      (extract reader language file source functions) := by
  refine ⟨sortedCalls language file source functions tree, ?_, fun k hk => ?_,
    pairwise_sortedCalls hapart, extract_eq_map file htree hfunctions hapart⟩
  · rw [← map_call_filterMap (fun _ _ => keyedCall?_eq_some_iff)]
    exact (sortedCalls_perm file).map KeyedCall.call
  · exact (mem_keyedCalls.1 ((sortedCalls_perm file).mem_iff.1 hk)).2

/-- Where there are more calls that count than calls that are found, or fewer, there is no
correspondence. -/
theorem not_corresponds_accepted {reader : Reader} (file : String)
    (htree : reader language source = some tree) (hfunctions : functions ≠ [])
    (hapart : (tree.keyLiterals language source).Pairwise Tree.Apart)
    (hne : (tree.subtrees.filterMap (keyedCall? language source functions)).length ≠
      (tree.subtrees.filterMap (accepted? language source functions)).length) :
    ¬Corresponds file source tree (Accepted language source functions)
      (extract reader language file source functions) := by
  intro haccepted
  have hadmitted := corresponds_admitted file htree hfunctions hapart
  have hlength := hadmitted.length_eq.symm.trans haccepted.length_eq
  rw [← map_call_filterMap (fun _ _ => keyedCall?_eq_some_iff),
    ← map_call_filterMap (fun _ _ => accepted?_eq_some_iff), List.length_map,
    List.length_map] at hlength
  exact hne hlength

/-- In a tree of a language without accesses to what may be missing, and without brackets and
substitutions, all that is admitted counts. -/
theorem Admitted.counts_of_plain (hconditional : (vocabulary language).conditional = none)
    (hplain : ∀ t ∈ tree.subtrees,
      t.kind ≠ (vocabulary language).subscript ∧ t.kind ≠ (vocabulary language).substitution)
    (hcall : k.call ∈ tree.subtrees) (hk : Admitted language source functions k) :
    k.literal.IsStatic (vocabulary language) ∧
      ¬k.call.Reaches (Tree.base? (vocabulary language))
        (Tree.IsSubscript (vocabulary language)) := by
  have hliteral := Tree.mem_subtrees_trans hcall
    (CallPattern.mem_subtrees_of_key? (key?_eq_some_iff.2 hk.argument))
  constructor
  · intro c hc
    exact (hplain c (Tree.mem_subtrees_trans hliteral (Tree.mem_subtrees_of_mem_children hc))).2
  · rintro ⟨u, hreach, hu⟩
    have hmem := Tree.LeadsTo.mem_subtrees (fun _ _ => Tree.mem_children_of_base?) hcall
      hreach.to_reflTransGen
    rcases hu with hkind | ⟨hu, -⟩
    · exact (hplain u hmem).1 hkind
    · rw [Tree.IsConditional, hconditional] at hu
      cases hu

/-- What corresponds to two kinds of calls at once are the same calls, if their literals may be keys
and lie apart. -/
theorem Corresponds.imp {P Q : KeyedCall → Prop} {sites : List CallSite}
    (hapart : (tree.keyLiterals language source).Pairwise Tree.Apart)
    (hP : ∀ k, P k → Candidate language source k ∧
      k.call.keyLiteral? language source = some k.literal)
    (hQ : ∀ k, Q k → Candidate language source k ∧
      k.call.keyLiteral? language source = some k.literal)
    (h : Corresponds file source tree P sites) (h' : Corresponds file source tree Q sites)
    (hcall : k.call ∈ tree.subtrees) (hk : P k) : Q k := by
  obtain ⟨found, hcalls, hfound, -, hsites⟩ := h
  obtain ⟨found', hcalls', hfound', -, hsites'⟩ := h'
  have hmem : k.call ∈ found.map KeyedCall.call :=
    hcalls.mem_iff.2 (Tree.mem_callsWith.2 ⟨hcall, k, rfl, hk⟩)
  obtain ⟨k', hk', heq⟩ := List.mem_map.1 hmem
  obtain rfl := (hP k' (hfound k' hk')).1.eq_of_call_eq (hP k hk).1 heq
  -- the same call site is that of one of the others
  have hsite : k'.site file source ∈ found'.map (KeyedCall.site file source) :=
    hsites' ▸ hsites ▸ List.mem_map_of_mem hk'
  obtain ⟨l, hl, hsite⟩ := List.mem_map.1 hsite
  have hcall' : l.call ∈ tree.subtrees :=
    (Tree.mem_callsWith.1 (hcalls'.mem_iff.1 (List.mem_map_of_mem hl))).1
  obtain ⟨hcandidate, hliteral⟩ := hP k' hk
  obtain ⟨hcandidate', hliteral'⟩ := hQ l (hfound' l hl)
  have hsame := hcandidate.eq_of_location_eq hcandidate' hapart (Tree.mem_keyed hcall hliteral)
    (Tree.mem_keyed hcall' hliteral') (congrArg CallSite.location hsite.symm)
  exact hsame ▸ hfound' l hl

/-- **The call sites of a text are exactly those of the calls that are admitted**, one for each, and
exactly those of the calls that count if and only if these are the same calls: none that is admitted
has a substitution in its literal or is made on brackets, and none that counts is called through an
access to what may be missing. -/
theorem extract_corresponds (reader : Reader) (file : String)
    (htree : reader language source = some tree) (hwritten : tree.WrittenIn language)
    (hfunctions : functions ≠ [])
    (hapart : (tree.keyLiterals language source).Pairwise Tree.Apart) :
    Corresponds file source tree (Admitted language source functions)
      (extract reader language file source functions) ∧
    (Corresponds file source tree (Accepted language source functions)
        (extract reader language file source functions) ↔
      (∀ k, k.call ∈ tree.subtrees → Admitted language source functions k →
        k.literal.IsStatic (vocabulary language) ∧
          ¬k.call.Reaches (Tree.base? (vocabulary language))
            (Tree.IsSubscript (vocabulary language))) ∧
      ∀ k, k.call ∈ tree.subtrees → Accepted language source functions k →
        ¬CalledConditionally language k) := by
  have hadmitted : Corresponds file source tree (Admitted language source functions)
      (extract reader language file source functions) :=
    corresponds_admitted file htree hfunctions hapart
  have hliteral : ∀ k, Admitted language source functions k → Candidate language source k ∧
      k.call.keyLiteral? language source = some k.literal :=
    fun k hk => ⟨hk.toCandidate, hk.keyLiteral?_eq hk.isStatic⟩
  have hliteral' : ∀ k, Accepted language source functions k → Candidate language source k ∧
      k.call.keyLiteral? language source = some k.literal :=
    fun k hk => ⟨hk.toCandidate, hk.keyLiteral?_eq fun _ => hk.isStatic⟩
  refine ⟨hadmitted, fun haccepted => ⟨fun k hcall hk => ?_, fun k hcall hk => ?_⟩, ?_⟩
  · have hk' := Corresponds.imp hapart hliteral hliteral' hadmitted haccepted hcall hk
    exact ⟨hk'.isStatic, hk'.direct⟩
  · have hk' := Corresponds.imp hapart hliteral' hliteral haccepted hadmitted hcall hk
    exact hk'.not_calledConditionally hwritten hcall
  · rintro ⟨hall, hall'⟩
    refine hadmitted.congr fun k hcall => ⟨fun hk => ?_, fun hk => ?_⟩
    · exact hk.accepted hwritten hcall (hall k hcall hk).1 (hall k hcall hk).2
    · exact hk.admitted hwritten hcall (hall' k hcall hk)

end Search

/-- The statement above speaks of a call in a call: here nothing is admitted that does not count,
and nothing is missing. -/
theorem extract_corresponds_sample :
    Reader.standard .javaScript sampleText = some (readTree .javaScript sampleText) ∧
    (readTree .javaScript sampleText).WrittenIn .javaScript ∧
    ((readTree .javaScript sampleText).keyLiterals .javaScript sampleText).Pairwise Tree.Apart ∧
    Corresponds "app.js" sampleText (readTree .javaScript sampleText)
      (Accepted .javaScript sampleText ["t"]) sampleSites := by
  have hwritten := writtenIn_readTree .javaScript sampleText
  have hapart : ((readTree .javaScript sampleText).keyLiterals .javaScript sampleText).Pairwise
      Tree.Apart := by decide +kernel
  have hplain : ∀ t ∈ (readTree .javaScript sampleText).subtrees,
      t.kind ≠ (vocabulary .javaScript).subscript ∧
        t.kind ≠ (vocabulary .javaScript).substitution := by decide +kernel
  have hexact := (extract_corresponds Reader.standard "app.js" rfl hwritten
    (List.cons_ne_nil "t" []) hapart).2
  rw [extract_sampleText] at hexact
  refine ⟨rfl, hwritten, hapart,
    hexact.2 ⟨fun k hcall hk => hk.counts_of_plain rfl hplain hcall, ?_⟩⟩
  rintro k - - ⟨callee, t, -, -, ht⟩
  cases ht

/-! ### Where the search is wrong -/

/-- A literal with a substitution, in a language where none is looked for. -/
def substitutedText : List Char :=
  "class A \x7b\n    void m() \x7b\n        t(\"a \\\x7bx\x7d b\");\n    \x7d\n\x7d\n".toList

/-- Brackets behind a comment in parentheses. -/
def subscriptText : List Char := "(/* c */ a[0]).t(\"x\");\n".toList

/-- Brackets after what may be missing. -/
def conditionalSubscriptText : List Char :=
  "class A \x7b\n    void M() \x7b\n        a?[0].L(\"x\");\n    \x7d\n\x7d\n".toList

/-- A call of a member of what may be missing. -/
def conditionalCallText : List Char :=
  "class A \x7b\n    void M() \x7b\n        a?.L(\"x\");\n    \x7d\n\x7d\n".toList

/-- Whether the call sites of a text whose literals lie apart are not those of the calls that
count. -/
def Misjudged (language : CodeLanguage) (file : String) (source : List Char)
    (functions : List String) : Prop :=
  ((readTree language source).keyLiterals language source).Pairwise Tree.Apart ∧
    ¬Corresponds file source (readTree language source) (Accepted language source functions)
      (extract Reader.standard language file source functions)

theorem misjudged {language : CodeLanguage} {source : List Char} {functions : List String}
    (file : String) (hfunctions : functions ≠ [])
    (hapart : ((readTree language source).keyLiterals language source).Pairwise Tree.Apart)
    (hne : ((readTree language source).subtrees.filterMap
        (keyedCall? language source functions)).length ≠
      ((readTree language source).subtrees.filterMap
        (accepted? language source functions)).length) :
    Misjudged language file source functions :=
  ⟨hapart, not_corresponds_accepted file rfl hfunctions hapart hne⟩

/-- **The search finds calls that do not count**, in the first three texts, and misses one that
does, in the last. -/
theorem extract_differs :
    Misjudged .java "A.java" substitutedText ["t"] ∧
    Misjudged .javaScript "a.js" subscriptText ["t"] ∧
    Misjudged .cSharp "A.cs" conditionalSubscriptText ["L"] ∧
    Misjudged .cSharp "A.cs" conditionalCallText ["L"] := by
  refine ⟨misjudged _ (List.cons_ne_nil _ _) ?_ ?_, misjudged _ (List.cons_ne_nil _ _) ?_ ?_,
    misjudged _ (List.cons_ne_nil _ _) ?_ ?_, misjudged _ (List.cons_ne_nil _ _) ?_ ?_⟩ <;>
  decide +kernel

end Concord.Source
