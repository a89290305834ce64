import Concord.Proofs.Edit.RenameSites
import Concord.Proofs.Literal.RoundTrip
import Concord.Proofs.Repeats
import Concord.Proofs.Text.Offsets
import Concord.Source.Extraction
import Mathlib.Data.List.Pairwise
import Mathlib.Data.Option.Basic

/-!
# Call sites and the text they were read from

A call site is read from two nodes of a syntax tree: a call, and the literal that is the first of
its arguments (`exists_literal_of_siteOf?`). The literal is in the text what it is taken apart into
(`exists_slices_of_parse?`), so its delimiters stand around the key, and where the nodes of the tree
fit the text, the call stands around the literal. All of this is first said of byte offsets; as the
places of boundaries are in their order and resolve to them, it holds of the ranges of the call site
as well (`coherent_of_siteOf?`). Sorting then leaves one call site for each location
(`extract_coherent`).
-/

namespace Concord.Source

open Text

/-! ### The nodes of a tree -/

namespace Tree

theorem subtreesOf_eq_flatMap (ts : List Tree) : subtreesOf ts = ts.flatMap subtrees := by
  induction ts with
  | nil => rw [subtreesOf, List.flatMap_nil]
  | cons t ts ih => rw [subtreesOf, List.flatMap_cons, ih]

theorem subtrees_eq_cons (t : Tree) : t.subtrees = t :: t.children.flatMap subtrees := by
  obtain ⟨field, kind, bytes, children⟩ := t
  rw [subtrees, subtreesOf_eq_flatMap, Tree.children]

theorem self_mem_subtrees (t : Tree) : t ∈ t.subtrees := by
  rw [subtrees_eq_cons]
  exact List.mem_cons_self

/-- A node is the root, or somewhere below one of its parts. -/
theorem mem_subtrees_iff {tree t : Tree} :
    t ∈ tree.subtrees ↔ t = tree ∨ ∃ child ∈ tree.children, t ∈ child.subtrees := by
  rw [subtrees_eq_cons, List.mem_cons, List.mem_flatMap]

theorem mem_subtrees_of_mem_children {t u : Tree} (h : u ∈ t.children) : u ∈ t.subtrees :=
  mem_subtrees_iff.2 (.inr ⟨u, h, self_mem_subtrees u⟩)

/-- **Below a node of a tree there are only nodes of that tree.** -/
theorem mem_subtrees_trans {tree t u : Tree} (ht : t ∈ tree.subtrees) (hu : u ∈ t.subtrees) :
    u ∈ tree.subtrees := by
  rcases mem_subtrees_iff.1 ht with rfl | ⟨child, hchild, ht⟩
  · exact hu
  · have := sizeOf_lt_of_mem_children hchild
    exact mem_subtrees_iff.2 (.inr ⟨child, hchild, mem_subtrees_trans ht hu⟩)
termination_by sizeOf tree

/-- Whether a tree fits a source text: each of its nodes begins and ends between two characters, and
the parts of a node lie within it. -/
structure Fits (source : List Char) (tree : Tree) : Prop where
  cut : ∀ t ∈ tree.subtrees, cutsAt t.bytes.start source ∧ cutsAt t.bytes.stop source
  within : ∀ t ∈ tree.subtrees, ∀ u ∈ t.children,
    t.bytes.start ≤ u.bytes.start ∧ u.bytes.stop ≤ t.bytes.stop

instance (source : List Char) (tree : Tree) : Decidable (tree.Fits source) :=
  decidable_of_iff (_ ∧ _) ⟨fun h => ⟨h.1, h.2⟩, fun h => ⟨h.cut, h.within⟩⟩

/-- A part of a tree that fits a source text fits it too. -/
theorem Fits.of_mem_subtrees {source : List Char} {tree t : Tree} (h : tree.Fits source)
    (ht : t ∈ tree.subtrees) : t.Fits source :=
  ⟨fun u hu => h.cut u (mem_subtrees_trans ht hu),
    fun u hu => h.within u (mem_subtrees_trans ht hu)⟩

/-- **All of a tree that fits a source text lies within its root.** -/
theorem Fits.bounds {source : List Char} {tree t : Tree} (h : tree.Fits source)
    (ht : t ∈ tree.subtrees) :
    tree.bytes.start ≤ t.bytes.start ∧ t.bytes.stop ≤ tree.bytes.stop := by
  rcases mem_subtrees_iff.1 ht with rfl | ⟨child, hchild, ht⟩
  · exact ⟨le_rfl, le_rfl⟩
  · have := sizeOf_lt_of_mem_children hchild
    obtain ⟨hstart, hstop⟩ := h.within tree (self_mem_subtrees tree) child hchild
    obtain ⟨hstart', hstop'⟩ :=
      (h.of_mem_subtrees (mem_subtrees_of_mem_children hchild)).bounds ht
    exact ⟨hstart.trans hstart', hstop'.trans hstop⟩
termination_by sizeOf tree

/-- A node with a text takes up that text. -/
theorem slice?_eq_some_text {source : List Char} {t : Tree} (h : t.text source ≠ []) :
    slice? t.bytes.start t.bytes.stop source = some (t.text source) := by
  rw [Tree.text] at h ⊢
  cases hslice : slice? t.bytes.start t.bytes.stop source with
  | none => exact absurd (by rw [hslice]; rfl) h
  | some piece => rfl

end Tree

/-! ### The call and its literal -/

section Site

variable {language : CodeLanguage} {file : String} {source : List Char} {functions : List String}
  {call : Tree} {s : CallSite}

/-- The call site that a literal makes of a call. -/
def siteAt (file : String) (source : List Char) (call literal : Tree) (parsed : Literal.Parsed) :
    CallSite where
  key := String.ofList parsed.key
  location :=
    ⟨file, rangeOf source (literal.bytes.start + parsed.innerStart)
      (literal.bytes.start + parsed.innerStop)⟩
  literalRange := rangeOf source literal.bytes.start literal.bytes.stop
  callRange := rangeOf source call.bytes.start call.bytes.stop
  style := parsed.style

theorem CallPattern.mem_subtrees_of_value? {p : CallPattern} {argument key : Tree}
    (h : p.value? argument = some key) : key ∈ argument.subtrees := by
  rw [value?] at h
  split at h
  · rw [← Option.some.inj h]
    exact Tree.self_mem_subtrees argument
  · have hhead := (Option.ite_none_right_eq_some.1 h).2
    exact Tree.mem_subtrees_of_mem_children (List.mem_of_head? hhead)

/-- The first argument of a call is somewhere below the call. -/
theorem CallPattern.mem_subtrees_of_key? {p : CallPattern} {key : Tree}
    (h : p.key? call = some key) : key ∈ call.subtrees := by
  simp only [key?, arguments?, Option.bind_eq_some_iff, Option.filter_eq_some_iff] at h
  obtain ⟨first, ⟨arguments, ⟨harguments, -⟩, hfirst⟩, hkey⟩ := h
  have harguments' :=
    Tree.mem_subtrees_of_mem_children (Tree.mem_children_of_child? harguments)
  have hfirst' := Tree.mem_subtrees_of_mem_children (List.mem_of_head? hfirst)
  exact Tree.mem_subtrees_trans (Tree.mem_subtrees_trans harguments' hfirst')
    (mem_subtrees_of_value? hkey)

/-- **What a call site is read from**: a call, and a literal below it that may be a key and is taken
apart into one. -/
theorem exists_literal_of_siteOf? (h : siteOf? language file source functions call = some s) :
    ∃ literal ∈ call.subtrees, ∃ rules parsed,
      literalRules? language source literal = some rules ∧
      Literal.parse? (literal.text source) rules = some parsed ∧ parsed.key ≠ [] ∧
      s = siteAt file source call literal parsed := by
  simp only [siteOf?, Option.bind_eq_bind, Option.bind_eq_some_iff, Option.guard_eq_some',
    Option.pure_def, exists_and_left, exists_const] at h
  obtain ⟨-, -, literal, hliteral, -, -, -, -, rules, hrules, parsed, hparsed, hkey, hs⟩ := h
  refine ⟨literal, CallPattern.mem_subtrees_of_key? hliteral, rules, parsed, hrules, hparsed, ?_,
    (Option.some_inj.1 hs).symm⟩
  simpa using hkey

/-- **A literal that is taken apart stands in the text as what it is taken apart into**: all of it
is the inside between its delimiters, and the inside is what stands between the offsets that were
found for it. -/
theorem exists_slices_of_parse? {literal : Tree} {rules : Literal.DelimiterRules}
    {parsed : Literal.Parsed} (h : Literal.parse? (literal.text source) rules = some parsed) :
    ∃ inner,
      slice? literal.bytes.start literal.bytes.stop source = some (parsed.style.wrap inner) ∧
      slice? (literal.bytes.start + parsed.innerStart) (literal.bytes.start + parsed.innerStop)
        source = some inner ∧
      literal.bytes.start < literal.bytes.start + parsed.innerStart ∧
      literal.bytes.start + parsed.innerStop < literal.bytes.stop ∧
      Literal.unescape inner parsed.style.escape = parsed.key := by
  obtain ⟨opening, inner, closing, htext, hopening, hclosing, hstart, hstop, hwrap, hkey⟩ :=
    Literal.exists_pieces_of_parse? h
  have hne : literal.text source ≠ [] := by
    rw [htext]
    exact List.append_ne_nil_of_left_ne_nil hopening _
  have hslice := Tree.slice?_eq_some_text hne
  have hlead := bytes_pos hopening
  have htail := bytes_pos hclosing
  obtain ⟨before, after, hsource, hbefore, hafter⟩ := slice?_eq_some_iff.1 hslice
  rw [htext] at hsource hafter
  rw [bytes_append, bytes_append] at hafter
  rw [bytes_append] at hstop
  have hslice' : slice? (literal.bytes.start + parsed.innerStart)
      (literal.bytes.start + parsed.innerStop) source = some inner := by
    refine slice?_eq_some_iff.2 ⟨before ++ opening, closing ++ after, ?_, ?_, ?_⟩
    · rw [hsource]
      simp only [List.append_assoc]
    · rw [bytes_append, hbefore, hstart]
    · rw [bytes_append, bytes_append]
      omega
  refine ⟨inner, hwrap ▸ hslice, hslice', ?_, ?_, hkey⟩
  · omega
  · rw [bytes_append] at hafter
    omega

/-! ### Call sites in their text -/

/-- How the literal of a call site lies in a text, and the key in the literal. -/
structure KeyInLiteral (source : List Char) (s : CallSite) : Prop where
  literal_resolves : Rename.Resolves source s.literalRange
  location_resolves : Rename.Resolves source s.location.range
  location_ordered : s.location.range.start ≤ s.location.range.stop
  /-- The literal goes beyond the key on both sides. -/
  key_inside :
    s.literalRange.start < s.location.range.start ∧ s.location.range.stop < s.literalRange.stop
  isolated : s.isolated
  /-- What stands in the location is the inside of the literal, and is read as the key. -/
  key_read : ∃ inner, textAt? source s.location.range = some inner ∧
    textAt? source s.literalRange = some (s.style.wrap inner) ∧
    String.ofList (Literal.unescape inner s.style.escape) = s.key
  key_ne_empty : s.key ≠ ""

/-- How a call site that was read from a text lies in it. -/
structure Coherent (source : List Char) (s : CallSite) : Prop extends KeyInLiteral source s where
  call_resolves : Rename.Resolves source s.callRange
  call_encloses : s.callRange.encloses s.literalRange

theorem resolves_rangeOf {m n : Nat} (hm : IsBoundary source m) (hn : IsBoundary source n)
    (h : m ≤ n) : Rename.Resolves source (rangeOf source m n) := by
  rw [Rename.Resolves, rangeOf_eq hm hn h, offsetAt?_positionAt hm, offsetAt?_positionAt hn]
  exact ⟨rfl, rfl⟩

/-- **The key stands in its literal**, whatever the call around it is. -/
theorem keyInLiteral_siteAt (file : String) (call : Tree) {literal : Tree}
    {rules : Literal.DelimiterRules} {parsed : Literal.Parsed}
    (hparsed : Literal.parse? (literal.text source) rules = some parsed) (hkey : parsed.key ≠ []) :
    KeyInLiteral source (siteAt file source call literal parsed) := by
  obtain ⟨inner, hwhole, hinner, hstart, hstop, hread⟩ := exists_slices_of_parse? hparsed
  obtain ⟨hm, hn, hmn⟩ := isBoundary_of_slice? hwhole
  obtain ⟨hm', hn', hmn'⟩ := isBoundary_of_slice? hinner
  have hinside : (siteAt file source call literal parsed).literalRange.start <
        (siteAt file source call literal parsed).location.range.start ∧
      (siteAt file source call literal parsed).location.range.stop <
        (siteAt file source call literal parsed).literalRange.stop := by
    rw [siteAt, rangeOf_eq hm hn hmn, rangeOf_eq hm' hn' hmn']
    exact ⟨positionAt_lt hm hm' hstart, positionAt_lt hn' hn hstop⟩
  exact {
    literal_resolves := resolves_rangeOf hm hn hmn
    location_resolves := resolves_rangeOf hm' hn' hmn'
    location_ordered := by
      rw [siteAt, rangeOf_eq hm' hn' hmn']
      exact positionAt_le hm' hn' hmn'
    key_inside := hinside
    isolated := Rename.isolated_of_lt hinside.1 hinside.2
    key_read := by
      refine ⟨inner, ?_, ?_, ?_⟩
      · rw [siteAt, textAt?_rangeOf hm' hn' hmn', hinner]
      · rw [siteAt, textAt?_rangeOf hm hn hmn, hwhole]
      · rw [siteAt, hread]
    key_ne_empty := by
      rw [siteAt, ← String.ofList_nil, Ne, String.ofList_inj]
      exact hkey }

/-- **A call site of a tree that fits its text is coherent with the text.** -/
theorem coherent_of_siteOf? {tree : Tree} (hfits : tree.Fits source) (hcall : call ∈ tree.subtrees)
    (h : siteOf? language file source functions call = some s) : Coherent source s := by
  obtain ⟨literal, hliteral, rules, parsed, -, hparsed, hkey, rfl⟩ := exists_literal_of_siteOf? h
  obtain ⟨hm, hn⟩ := hfits.cut call hcall
  obtain ⟨hm', hn'⟩ := hfits.cut literal (Tree.mem_subtrees_trans hcall hliteral)
  rw [cutsAt_iff] at hm hn hm' hn'
  obtain ⟨hstart, hstop⟩ := (hfits.of_mem_subtrees hcall).bounds hliteral
  obtain ⟨inner, hwhole, -⟩ := exists_slices_of_parse? hparsed
  obtain ⟨-, -, hordered⟩ := isBoundary_of_slice? hwhole
  refine ⟨keyInLiteral_siteAt file call hparsed hkey, resolves_rangeOf hm hn (by omega), ?_⟩
  rw [siteAt, Range.encloses, rangeOf_eq hm hn (by omega), rangeOf_eq hm' hn' hordered,
    Bool.and_eq_true, decide_eq_true_eq, decide_eq_true_eq]
  exact ⟨positionAt_le hm hm' (by omega), positionAt_le hn' hn (by omega)⟩

end Site

/-! ### The call sites of a text -/

section Extract

variable {reader : Reader} {language : CodeLanguage} {file : String} {source : List Char}
  {functions : List String} {s : CallSite}

theorem exists_siteOf?_of_mem_extract (h : s ∈ extract reader language file source functions) :
    ∃ tree, reader language source = some tree ∧
      ∃ call ∈ tree.subtrees, siteOf? language file source functions call = some s := by
  rw [extract] at h
  split at h
  · exact absurd h List.not_mem_nil
  · split at h
    · exact absurd h List.not_mem_nil
    · next tree htree =>
      rw [sitesIn] at h
      have hfound := List.mem_mergeSort.1 ((dropRepeats_sublist _ _).subset h)
      obtain ⟨call, hcall, hs⟩ := List.mem_filterMap.1 hfound
      exact ⟨tree, htree, call, hcall, hs⟩

/-- A call site of a text is read from a literal of its tree. -/
theorem exists_literal_of_mem_extract (h : s ∈ extract reader language file source functions) :
    ∃ tree, reader language source = some tree ∧ ∃ literal ∈ tree.subtrees, ∃ call rules parsed,
      literalRules? language source literal = some rules ∧
      Literal.parse? (literal.text source) rules = some parsed ∧ parsed.key ≠ [] ∧
      s = siteAt file source call literal parsed := by
  obtain ⟨tree, htree, call, hcall, hs⟩ := exists_siteOf?_of_mem_extract h
  obtain ⟨literal, hliteral, rules, parsed, hread⟩ := exists_literal_of_siteOf? hs
  exact ⟨tree, htree, literal, Tree.mem_subtrees_trans hcall hliteral, call, rules, parsed, hread⟩

/-- **Call sites stand in the file they were read from.** -/
theorem file_of_mem_extract (h : s ∈ extract reader language file source functions) :
    s.location.file = file := by
  obtain ⟨tree, -, literal, -, call, rules, parsed, -, -, -, rfl⟩ := exists_literal_of_mem_extract h
  rfl

/-- **There is one call site for each location**, and they are in order. -/
theorem increasingBy_extract (reader : Reader) (language : CodeLanguage) (file : String)
    (source : List Char) (functions : List String) :
    IncreasingBy CallSite.location (extract reader language file source functions) := by
  rw [extract]
  split
  · exact List.Pairwise.nil
  · split
    · exact List.Pairwise.nil
    · exact increasingBy_dropRepeats (orderedBy_mergeSort CallSite.location _)

/-- **The call sites that are found in a text are coherent with it**, whatever the tree of the text
is, as long as it fits the text. -/
theorem extract_coherent (language : CodeLanguage) (file : String) (functions : List String)
    (hfits : ∀ tree, reader language source = some tree → tree.Fits source) :
    IncreasingBy CallSite.location (extract reader language file source functions) ∧
      ∀ s ∈ extract reader language file source functions, Coherent source s := by
  refine ⟨increasingBy_extract reader language file source functions, fun s hs => ?_⟩
  obtain ⟨tree, htree, call, hcall, hsite⟩ := exists_siteOf?_of_mem_extract hs
  exact coherent_of_siteOf? (hfits tree htree) hcall hsite

end Extract

/-- A call over several lines with another one in it, and characters outside the basic plane before
it and in its key. -/
def sampleText : List Char := "/*😀*/ t(\n  \"a\\n😀\",\n  t('b'))".toList

/-- The call sites of that text. -/
def sampleSites : List CallSite :=
  [⟨"a\n😀", ⟨"app.js", ⟨⟨1, 3⟩, ⟨1, 8⟩⟩⟩, ⟨⟨1, 2⟩, ⟨1, 9⟩⟩, ⟨⟨0, 7⟩, ⟨2, 9⟩⟩, .doubleQuoted⟩,
    ⟨"b", ⟨"app.js", ⟨⟨2, 5⟩, ⟨2, 6⟩⟩⟩, ⟨⟨2, 4⟩, ⟨2, 7⟩⟩, ⟨⟨2, 2⟩, ⟨2, 8⟩⟩, ⟨"", "'", .backslash⟩⟩]

theorem extract_sampleText :
    extract Reader.standard .javaScript "app.js" sampleText ["t"] = sampleSites := by
  have hfound : (readTree .javaScript sampleText).subtrees.filterMap
      (siteOf? .javaScript "app.js" sampleText ["t"]) = sampleSites := by decide +kernel
  have hsorted : sampleSites.mergeSort (fun a b => (compare a.location b.location).isLE) =
      sampleSites := List.mergeSort_of_pairwise (by decide)
  change sitesIn .javaScript "app.js" sampleText ["t"] (readTree .javaScript sampleText) = _
  rw [sitesIn, hfound, hsorted]
  decide

/-- The statement above speaks of this text and of the tree that is read from it. -/
theorem extract_coherent_sample :
    (readTree .javaScript sampleText).Fits sampleText ∧
    extract Reader.standard .javaScript "app.js" sampleText ["t"] = sampleSites ∧
    IncreasingBy CallSite.location sampleSites ∧ ∀ s ∈ sampleSites, Coherent sampleText s := by
  have hfits : (readTree .javaScript sampleText).Fits sampleText := by decide +kernel
  have hread : ∀ tree, Reader.standard .javaScript sampleText = some tree →
      tree.Fits sampleText := by
    intro tree htree
    exact Option.some.inj htree ▸ hfits
  have hcoherent := extract_coherent .javaScript "app.js" ["t"] hread
  rw [extract_sampleText] at hcoherent
  exact ⟨hfits, extract_sampleText, hcoherent⟩

/-! ### Literals apart -/

namespace Tree

/-- Whether one of two nodes ends before the other begins. -/
def Apart (t u : Tree) : Prop := t.bytes.stop ≤ u.bytes.start ∨ u.bytes.stop ≤ t.bytes.start

instance : Std.Symm Apart := ⟨fun _ _ => Or.symm⟩

instance (t u : Tree) : Decidable (t.Apart u) := inferInstanceAs (Decidable (_ ∨ _))

/-- Whether the literals of a tree that may be keys lie apart. -/
def LiteralsApart (language : CodeLanguage) (source : List Char) (tree : Tree) : Prop :=
  ∀ t ∈ tree.subtrees, ∀ u ∈ tree.subtrees, (literalRules? language source t).isSome →
    (literalRules? language source u).isSome → t ≠ u → t.Apart u

/-- Literals that follow each other in the order of the text lie apart. -/
theorem literalsApart_of_pairwise {language : CodeLanguage} {source : List Char} {tree : Tree}
    (h : (tree.subtrees.filter fun t => (literalRules? language source t).isSome).Pairwise
      fun t u => t.bytes.stop ≤ u.bytes.start) : tree.LiteralsApart language source := by
  intro t ht u hu htliteral huliteral hne
  have hapart : List.Pairwise Apart _ := h.imp Or.inl
  exact hapart.forall (List.mem_filter.2 ⟨ht, htliteral⟩) (List.mem_filter.2 ⟨hu, huliteral⟩) hne

end Tree

/-- **Call sites lie in their text as a rename needs them**, where literals lie apart: two call
sites with one literal would have one location. -/
theorem placed_extract {reader : Reader} {language : CodeLanguage} {source : List Char}
    (file : String) (functions : List String)
    (hapart : ∀ tree, reader language source = some tree → tree.LiteralsApart language source) :
    Rename.Placed source (extract reader language file source functions) := by
  have hinside : ∀ s ∈ extract reader language file source functions, KeyInLiteral source s := by
    intro s hs
    obtain ⟨tree, -, literal, -, call, rules, parsed, -, hparsed, hkey, rfl⟩ :=
      exists_literal_of_mem_extract hs
    exact keyInLiteral_siteAt file call hparsed hkey
  refine ⟨fun s hs => (hinside s hs).location_resolves, fun s hs => (hinside s hs).literal_resolves,
    fun s hs => (hinside s hs).location_ordered, fun s hs => (hinside s hs).key_inside,
    fun s hs t ht hst => ?_⟩
  have honce := List.inj_on_of_nodup_map
    (increasingBy_extract reader language file source functions).nodup_map hs ht
  obtain ⟨tree, htree, literal, hliteral, call, rules, parsed, hrules, hparsed, -, rfl⟩ :=
    exists_literal_of_mem_extract hs
  obtain ⟨tree', htree', literal', hliteral', call', rules', parsed', hrules', hparsed', -, rfl⟩ :=
    exists_literal_of_mem_extract ht
  obtain rfl : tree = tree' := Option.some.inj (htree.symm.trans htree')
  have hne : literal ≠ literal' := by
    rintro rfl
    obtain rfl : rules = rules' := Option.some.inj (hrules.symm.trans hrules')
    obtain rfl : parsed = parsed' := Option.some.inj (hparsed.symm.trans hparsed')
    exact hst (honce rfl)
  obtain ⟨inner, hwhole, -⟩ := exists_slices_of_parse? hparsed
  obtain ⟨inner', hwhole', -⟩ := exists_slices_of_parse? hparsed'
  obtain ⟨hm, hn, hmn⟩ := isBoundary_of_slice? hwhole
  obtain ⟨hm', hn', hmn'⟩ := isBoundary_of_slice? hwhole'
  rw [siteAt, siteAt, rangeOf_eq hm hn hmn, rangeOf_eq hm' hn' hmn']
  rcases hapart tree htree literal hliteral literal' hliteral' (by simp [hrules])
    (by simp [hrules']) hne with hbefore | hbefore
  · exact .inl (positionAt_le hn hm' hbefore)
  · exact .inr (positionAt_le hn' hm hbefore)

end Concord.Source
