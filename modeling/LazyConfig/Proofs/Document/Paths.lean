-- The paths of a document: its name, and what comes after its name and a dot. The bindings of
-- a document and the scopes they are evaluated in have such paths.
-- Main statements: one path is below at most one name without dots, and an object literal has a
-- binding for each of its properties.
import LazyConfig.Document.Bindings

namespace LazyConfig

/-! ## Below a path -/

/-- The path is the root or goes on after it with a dot. -/
def Below (root path : String) : Prop := path = root ∨ ∃ rest, path = childPath root rest

theorem Below.refl (root : String) : Below root root := Or.inl rfl

theorem Below.child {root path : String} (h : Below root path) (key : String) :
    Below root (childPath path key) := by
  rcases h with rfl | ⟨rest, rfl⟩
  · exact Or.inr ⟨key, rfl⟩
  · refine Or.inr ⟨childPath rest key, ?_⟩
    simp only [childPath, String.append_assoc]

theorem toList_childPath (path key : String) :
    (childPath path key).toList = path.toList ++ '.' :: key.toList := by
  simp [childPath]

/-- Of two roots of one path, one is below the other. A root without dots is the upper one. -/
theorem Below.of_below {root top path : String} (h : Below root path) (htop : Below top path)
    (hdot : '.' ∉ top.toList) : Below top root := by
  rcases h with rfl | ⟨rest, rfl⟩
  · exact htop
  rcases htop with heq | ⟨rest', heq⟩
  · rw [← heq, toList_childPath] at hdot
    simp at hdot
  · have hlists : root.toList ++ '.' :: rest.toList = top.toList ++ '.' :: rest'.toList := by
      rw [← toList_childPath, ← toList_childPath, heq]
    rcases List.append_eq_append_iff.mp hlists with ⟨more, hmore, hrest⟩ | ⟨more, hmore, hrest⟩
    · cases more with
      | nil =>
        rw [List.append_nil] at hmore
        exact Or.inl (String.toList_inj.mp hmore).symm
      | cons c more =>
        rw [List.cons_append, List.cons.injEq] at hrest
        rw [hmore, ← hrest.1] at hdot
        simp at hdot
    · cases more with
      | nil =>
        rw [List.append_nil] at hmore
        exact Or.inl (String.toList_inj.mp hmore)
      | cons c more =>
        rw [List.cons_append, List.cons.injEq] at hrest
        refine Or.inr ⟨String.ofList more, String.toList_inj.mp ?_⟩
        rw [toList_childPath, String.toList_ofList, hrest.1]
        exact hmore

/-- A name without dots is below no other. -/
theorem Below.eq_of_no_dot {root top : String} (h : Below top root) (hdot : '.' ∉ root.toList) :
    root = top := by
  rcases h with h | ⟨rest, h⟩
  · exact h
  · rw [h, toList_childPath] at hdot
    simp at hdot

/-! ## The bindings of a document -/

/-- A binding and its scopes are below a path. -/
structure Suspension.Within (root : String) (b : Suspension) : Prop where
  path : Below root b.path
  scopes : ∀ scope ∈ b.scopes, Below root scope

mutual

theorem within_bindingsAt {root : String} : (e : Expr) → {scopes : List String} →
    {path : String} → (∀ scope ∈ scopes, Below root scope) → Below root path →
      ∀ b ∈ bindingsAt scopes path e, b.Within root
  | .object _ members, scopes, path, hscopes, hpath, b, hb => by
    have hinner : ∀ scope ∈ path :: scopes, Below root scope :=
      List.forall_mem_cons.mpr ⟨hpath, hscopes⟩
    unfold bindingsAt at hb
    rcases List.mem_cons.mp hb with rfl | hb
    · exact ⟨hpath, hinner⟩
    · exact within_memberBindings members hinner hpath b hb
  | .number .., scopes, path, hscopes, hpath, b, hb
  | .string .., scopes, path, hscopes, hpath, b, hb
  | .boolean .., scopes, path, hscopes, hpath, b, hb
  | .null .., scopes, path, hscopes, hpath, b, hb
  | .blob .., scopes, path, hscopes, hpath, b, hb
  | .identifier .., scopes, path, hscopes, hpath, b, hb
  | .relative .., scopes, path, hscopes, hpath, b, hb
  | .array .., scopes, path, hscopes, hpath, b, hb
  | .call .., scopes, path, hscopes, hpath, b, hb
  | .lambda .., scopes, path, hscopes, hpath, b, hb
  | .binary .., scopes, path, hscopes, hpath, b, hb
  | .unary .., scopes, path, hscopes, hpath, b, hb => by
    simp only [bindingsAt, List.mem_singleton] at hb
    subst hb
    refine ⟨hpath, ?_⟩
    by_cases h : scopes.isEmpty
    · simpa [h] using hpath
    · simpa [h] using hscopes

theorem within_memberBindings {root : String} : (members : List Member) →
    {scopes : List String} → {path : String} → (∀ scope ∈ scopes, Below root scope) →
      Below root path → ∀ b ∈ memberBindings scopes path members, b.Within root
  | [], _, _, _, _, _, hb => by simp [memberBindings] at hb
  | .property key value :: later, scopes, path, hscopes, hpath, b, hb => by
    have hlater := within_memberBindings later hscopes hpath b
    unfold memberBindings at hb
    split at hb
    · exact hlater hb
    · rcases List.mem_append.mp hb with hb | hb
      · exact within_bindingsAt value hscopes (hpath.child key) b hb
      · exact hlater hb
  | .spread _ :: later, scopes, path, hscopes, hpath, b, hb => by
    unfold memberBindings at hb
    exact within_memberBindings later hscopes hpath b hb

end

theorem within_documentBindings {name : String} {root : Expr} {b : Suspension}
    (hb : b ∈ documentBindings name root) : b.Within name :=
  within_bindingsAt root (by simp) (.refl name) b hb

theorem name_mem_documentBindings (name : String) (root : Expr) :
    ∃ b ∈ documentBindings name root, b.path = name := by
  have h := head?_bindingsAt [] name root
  rw [Option.map_eq_some_iff] at h
  obtain ⟨b, hb, hpath⟩ := h
  exact ⟨b, List.mem_of_head? hb, hpath⟩

/-- Of bindings with distinct paths, each is the one with its path. -/
theorem find?_path {bindings : List Suspension} (h : (bindings.map (·.path)).Nodup) {b : Suspension}
    (hb : b ∈ bindings) : (bindings.find? fun b' => b'.path = b.path) = some b := by
  induction bindings with
  | nil => cases hb
  | cons b' bindings ih =>
    rw [List.map_cons, List.nodup_cons] at h
    rcases List.mem_cons.mp hb with rfl | hb
    · simp
    · have hne : b'.path ≠ b.path := fun heq => h.1 (heq ▸ List.mem_map_of_mem hb)
      rw [List.find?_cons_of_neg (by simpa using hne), ih h.2 hb]

/-! ## Members -/

/-- Where an object literal is among the bindings, its properties are too. -/
def Complete (bindings : List Suspension) : Prop :=
  ∀ b ∈ bindings, ∀ members key value, b.task = .members members →
    .property key value ∈ members → ∃ b' ∈ bindings, b'.path = childPath b.path key

theorem exists_binding_of_member (scopes : List String) (path : String) {key : String} :
    {members : List Member} → (∃ value, .property key value ∈ members) →
      ∃ b ∈ memberBindings scopes path members, b.path = childPath path key
  | [], h => by simp at h
  | .spread _ :: later, h => by
    unfold memberBindings
    exact exists_binding_of_member scopes path (by simpa using h)
  | .property key' value :: later, h => by
    have hlater : (∃ value, .property key value ∈ later) →
        ∃ b ∈ memberBindings scopes path later, b.path = childPath path key :=
      exists_binding_of_member scopes path
    unfold memberBindings
    by_cases ho : isOverridden key' later = true
    · rw [if_pos ho]
      apply hlater
      obtain ⟨value', hmem⟩ := h
      rcases List.mem_cons.mp hmem with heq | hmem
      · obtain ⟨rfl, _⟩ := Member.property.inj heq
        obtain ⟨m, hm, hkey⟩ := List.any_eq_true.mp ho
        cases m with
        | property key'' value'' =>
          simp only [Member.key?, Option.some.injEq, decide_eq_true_eq] at hkey
          exact ⟨value'', hkey ▸ hm⟩
        | spread e => simp [Member.key?] at hkey
      · exact ⟨value', hmem⟩
    · rw [if_neg ho]
      obtain ⟨value', hmem⟩ := h
      rcases List.mem_cons.mp hmem with heq | hmem
      · obtain ⟨rfl, _⟩ := Member.property.inj heq
        have hhead := head?_bindingsAt scopes (childPath path key) value
        rw [Option.map_eq_some_iff] at hhead
        obtain ⟨b, hb, hpath⟩ := hhead
        exact ⟨b, List.mem_append_left _ (List.mem_of_head? hb), hpath⟩
      · obtain ⟨b, hb, hpath⟩ := hlater ⟨value', hmem⟩
        exact ⟨b, List.mem_append_right _ hb, hpath⟩

theorem Complete.append {bindings bindings' : List Suspension} (h : Complete bindings)
    (h' : Complete bindings') : Complete (bindings ++ bindings') := by
  intro b hb members key value htask hmem
  rcases List.mem_append.mp hb with hb | hb
  · obtain ⟨c, hc, hpath⟩ := h b hb members key value htask hmem
    exact ⟨c, List.mem_append_left _ hc, hpath⟩
  · obtain ⟨c, hc, hpath⟩ := h' b hb members key value htask hmem
    exact ⟨c, List.mem_append_right _ hc, hpath⟩

theorem complete_expression (path : String) (scopes : List String) (e : Expr) :
    Complete [⟨path, scopes, .expression e⟩] := by
  intro b hb members key value htask
  rw [List.mem_singleton] at hb
  subst hb
  cases htask

mutual

theorem complete_bindingsAt : (e : Expr) → (scopes : List String) → (path : String) →
    Complete (bindingsAt scopes path e)
  | .object _ members, scopes, path => by
    have hinner := complete_memberBindings members (path :: scopes) path
    unfold bindingsAt
    intro b hb members' key value htask hmem
    rcases List.mem_cons.mp hb with rfl | hb
    · cases htask
      obtain ⟨c, hc, hpath⟩ := exists_binding_of_member (path :: scopes) path ⟨value, hmem⟩
      exact ⟨c, List.mem_cons_of_mem _ hc, hpath⟩
    · obtain ⟨c, hc, hpath⟩ := hinner b hb members' key value htask hmem
      exact ⟨c, List.mem_cons_of_mem _ hc, hpath⟩
  | .number .., _, _ | .string .., _, _ | .boolean .., _, _ | .null .., _, _ | .blob .., _, _
  | .identifier .., _, _ | .relative .., _, _ | .array .., _, _ | .call .., _, _
  | .lambda .., _, _ | .binary .., _, _ | .unary .., _, _ => by
    simp only [bindingsAt]
    exact complete_expression _ _ _

theorem complete_memberBindings : (members : List Member) → (scopes : List String) →
    (path : String) → Complete (memberBindings scopes path members)
  | [], _, _ => by
    intro b hb
    simp [memberBindings] at hb
  | .property key value :: later, scopes, path => by
    have hlater := complete_memberBindings later scopes path
    unfold memberBindings
    split
    · exact hlater
    · exact (complete_bindingsAt value scopes (childPath path key)).append hlater
  | .spread _ :: later, scopes, path => by
    unfold memberBindings
    exact complete_memberBindings later scopes path

end

theorem complete_documentBindings (name : String) (root : Expr) :
    Complete (documentBindings name root) := complete_bindingsAt root [] name

end LazyConfig
