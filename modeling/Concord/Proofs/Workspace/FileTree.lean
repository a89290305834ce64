import Concord.Workspace.FileTree

/-!
# What is where after a change

Two places are the same when their paths are. Putting something at a place changes what is there and
nowhere else (`node?_put_of_ne`), so that where paths lead depends on directories alone: they lead
where they led when something is put at a vacant place (`resolve_put_vacant`) or a text takes the
place of a text (`resolve_put_text`).
-/

namespace Concord

namespace FileTree

variable {t : FileTree} {p q : Place} {node : Node}

@[simp] theorem node?_nil (t : FileTree) : t.node? [] = some .directory := rfl

theorem node?_of_ne_nil (hq : q ≠ []) : t.node? q = t.nodes.get? (pathOf q) := if_neg hq

theorem ne_nil_of_node? {found : Option Node} (h : t.node? q = found)
    (hfound : found ≠ some .directory) : q ≠ [] := by
  rintro rfl
  exact hfound h.symm

theorem node?_put_of_eq (hq : q ≠ []) (h : pathOf q = pathOf p) :
    (t.put p node).node? q = some node := by
  rw [node?_of_ne_nil hq, put, Dict.get?_insert, if_pos h]

theorem node?_put_of_ne (h : pathOf q ≠ pathOf p) : (t.put p node).node? q = t.node? q := by
  by_cases hq : q = []
  · rw [hq, node?_nil, node?_nil]
  · rw [node?_of_ne_nil hq, node?_of_ne_nil hq, put, Dict.get?_insert, if_neg h]

/-- Places where different things are, are different. -/
theorem node?_put_of_node?_ne (hp : p ≠ []) (h : t.node? q ≠ t.node? p) :
    (t.put p node).node? q = t.node? q := by
  by_cases hq : q = []
  · rw [hq, node?_nil, node?_nil]
  · refine node?_put_of_ne fun hqp => h ?_
    rw [node?_of_ne_nil hq, node?_of_ne_nil hp, hqp]

/-- Where a text takes the place of a text, each place is as before or had a text and has one. -/
theorem node?_put_text {former : String} (hp : t.node? p = some (.text former)) (new : String)
    (q : Place) : (t.put p (.text new)).node? q = t.node? q ∨
      t.node? q = some (.text former) ∧ (t.put p (.text new)).node? q = some (.text new) := by
  have hne : p ≠ [] := ne_nil_of_node? hp (by simp)
  by_cases hq : t.node? q = t.node? p
  · by_cases hqp : pathOf q = pathOf p
    · have hqne : q ≠ [] := ne_nil_of_node? (hq.trans hp) (by simp)
      exact .inr ⟨hq.trans hp, node?_put_of_eq hqne hqp⟩
    · exact .inl (node?_put_of_ne hqp)
  · exact .inl (node?_put_of_node?_ne hne hq)

/-! ### Changes that undo each other -/

theorem ext_get? {t t' : FileTree} (h : ∀ k, t.nodes.get? k = t'.nodes.get? k)
    (hdir : t.workingDir = t'.workingDir) : t = t' := by
  obtain ⟨nodes, dir⟩ := t
  obtain ⟨nodes', dir'⟩ := t'
  obtain rfl : nodes = nodes' := Dict.ext_get? h
  obtain rfl : dir = dir' := hdir
  rfl

theorem take_put (hp : t.node? p = none) : (t.put p node).take p = t := by
  have hne : p ≠ [] := ne_nil_of_node? hp (by simp)
  refine ext_get? (fun k => ?_) rfl
  simp only [put, take, Dict.get?_erase, Dict.get?_insert]
  split
  · next hk => rw [hk, ← node?_of_ne_nil hne, hp]
  · rfl

theorem put_put_self {node' : Node} (hne : p ≠ []) (hp : t.node? p = some node) :
    (t.put p node').put p node = t := by
  refine ext_get? (fun k => ?_) rfl
  simp only [put, Dict.get?_insert]
  split
  · next hk => rw [hk, ← node?_of_ne_nil hne, hp]
  · rfl

/-! ### Paths that lead where they led -/

theorem follow_put_vacant (hq : t.node? q = none) {start : Place} {segments : List (List Char)}
    (h : t.follow start segments = .ok p) : (t.put q node).follow start segments = .ok p := by
  have hne : q ≠ [] := ne_nil_of_node? hq (by simp)
  induction segments generalizing start with
  | nil => exact h
  | cons segment rest ih =>
    rw [follow] at h ⊢
    split at h
    · simp at h
    · next hdir =>
      rw [node?_put_of_node?_ne hne (by simp [hdir, hq]), hdir]
      exact ih h
    · simp at h

/-- **A path leads where it led** when something is put where nothing was. -/
theorem resolve_put_vacant (hq : t.node? q = none) {path : String} (h : t.resolve path = .ok p) :
    (t.put q node).resolve path = .ok p := by
  rw [resolve] at h ⊢
  split at h
  · simp at h
  · next hpath =>
    rw [if_neg hpath]
    exact follow_put_vacant hq h

theorem follow_put_text {former : String} (hp : t.node? p = some (.text former)) (new : String)
    (start : Place) (segments : List (List Char)) :
    (t.put p (.text new)).follow start segments = t.follow start segments := by
  induction segments generalizing start with
  | nil => rfl
  | cons segment rest ih =>
    rw [follow, follow]
    rcases node?_put_text hp new start with hsame | ⟨hformer, hnew⟩
    · rw [hsame]
      split
      · rfl
      · exact ih _
      · rfl
    -- a text is no directory, whichever it is
    · rw [hformer, hnew]

/-- **A path leads where it led** when a text takes the place of a text. -/
theorem resolve_put_text {former : String} (hp : t.node? p = some (.text former)) (new : String)
    (path : String) : (t.put p (.text new)).resolve path = t.resolve path := by
  rw [resolve, resolve]
  split
  · rfl
  · exact follow_put_text hp new _ _

/-! ### Texts of files -/

/-- A file can be read when its path leads to a text. -/
theorem read_eq_ok_iff {path text : String} :
    t.read path = .ok text ↔ ∃ p, t.resolve path = .ok p ∧ t.node? p = some (.text text) := by
  rw [read, find]
  cases t.resolve path with
  | error fault => simp [bind, Except.bind]
  | ok p =>
    cases hnode : t.node? p with
    | none => simp [bind, Except.bind, throw, throwThe, MonadExceptOf.throw, hnode]
    | some node =>
      cases node <;>
        simp [bind, Except.bind, pure, Except.pure, throw, throwThe, MonadExceptOf.throw, hnode]

end FileTree

end Concord
