-- Names mean what the text around them says. A document without dots in its keys can be read
-- without its paths: a name stands for the property of the innermost object literal around it that
-- has one of this name, wherever and whenever it is evaluated. A key with a dot can break this.
-- Main statements: what the names of a document are evaluated to in all requests, and a document
-- with a dot in a key where another literal is found.
import LazyConfig.Proofs.Session.Constants
import LazyConfig.Proofs.Session.Scoping
import LazyConfig.Proofs.Source.WellFormed
import Mathlib.Data.List.Find

namespace LazyConfig

open Store Evaluation Relation

/-! ## Lookups by the text -/

/-- The value of a name by what the object literals around it declare. -/
def lexicalLookup (left : Nat) (scopes : List Scope) (frame : Frame) (span : Span) (name : String) :
    Evaluation Value :=
  match scopes.find? (·.declares name) with
  | some scope => Attempt.value left (childPath scope.path name)
  | none =>
    match Builtin.ofName? name with
    | some b => return .function (← fresh frame) (.builtin b)
    | none => fail span (.unknownName name)

/-- The value of a name by what the object literal `level` literals out declares. -/
def lexicalRelative (left : Nat) (scopes : List Scope) (span : Span) (level : Nat) (name : String) :
    Evaluation Value :=
  match scopes[level]? with
  | none => fail span (.scopeOutOfRange level name)
  | some scope =>
    if scope.declares name then Attempt.value left (childPath scope.path name)
    else fail span (.unknownName name)

section

variable (behaviour : Behaviour Suspension Nat) {s : Store Suspension} {scopes : List Scope}
  {name : String}

theorem exec_findScoped
    (h : ∀ scope ∈ scopes, s.contains (childPath scope.path name) = scope.declares name) :
    s.exec behaviour (findScoped name (scopes.map (·.path))).run =
      (.ok ((scopes.find? (·.declares name)).map fun scope => childPath scope.path name), s) := by
  have hdeclares := List.find?_congr h
  rw [run_findScoped, scoped?, List.map_map, List.find?_map, ← hdeclares]
  rfl

variable {frame : Frame} (hscopes : frame.scopes = scopes.map (·.path))
  (h : ∀ scope ∈ scopes, s.contains (childPath scope.path name) = scope.declares name)

include hscopes h

theorem exec_lookup (henv : frame.env.lookup name = none) (left : Nat) (span : Span) (count : Nat) :
    s.exec behaviour (lookup left frame span name count).run =
      s.exec behaviour (lexicalLookup left scopes frame span name count).run := by
  unfold lookup lexicalLookup
  rw [henv, hscopes]
  dsimp only
  rw [exec_lift_bind, exec_findScoped behaviour h]
  cases scopes.find? (·.declares name) with
  | some scope => rfl
  | none => rfl

theorem exec_lookupRelative (left : Nat) (span : Span) (level count : Nat) :
    s.exec behaviour (lookupRelative left frame span level name count).run =
      s.exec behaviour (lexicalRelative left scopes span level name count).run := by
  unfold lookupRelative lexicalRelative
  rw [hscopes, List.getElem?_map]
  cases hlevel : scopes[level]? with
  | none => rfl
  | some scope =>
    have hscope := h scope (List.mem_of_getElem? hlevel)
    rw [Option.map_some]
    dsimp only
    rw [exec_lift_bind, exec_attempt_contains, hscope]

end

/-! ## What is bound in a scope -/

variable {host : Host} {name : String} {root e : Expr} {scopes : List Scope} {names : List String}
  {s : Store Suspension}

/-- A path below a scope is bound exactly if the scope declares the key. -/
theorem Store.Confines.contains (h : s.Confines host name root)
    (hnodup : ((documentBindings name root).map (·.path)).Nodup) (hdots : root.DotFree)
    (hoccurs : OccursIn name root scopes names e) {scope : Scope} (hscope : scope ∈ scopes)
    {key : String} (hkey : '.' ∉ key.toList) :
    s.contains (childPath scope.path key) = scope.declares key := by
  obtain ⟨around, path, standing, hstands, rfl⟩ := hoccurs.exists_stands .root
  have hbelow : Below name scope.path :=
    (within_documentBindings hstands.mem).scopes scope.path (List.mem_map_of_mem hscope)
  rw [contains_eq_body?, h.only _ (hbelow.child key), Bool.eq_iff_iff, List.find?_isSome]
  constructor
  · rintro ⟨b, hb, hpath⟩
    exact hstands.declares_of_bound hnodup hdots hscope hkey hb (by simpa using hpath)
  · intro hdeclares
    obtain ⟨value, hvalue⟩ := Option.isSome_iff_exists.mp hdeclares
    obtain ⟨front, outer, hsplit⟩ := List.append_of_mem hscope
    exact ⟨_, hstands.mem_of_property hsplit hvalue, by simp [suspensionAt]⟩

/-- What is bound there is the property of the scope, in the scopes from this one on. -/
theorem Store.Confines.property (h : s.Confines host name root)
    (hnodup : ((documentBindings name root).map (·.path)).Nodup)
    (hoccurs : OccursIn name root scopes names e) {front outer : List Scope} {scope : Scope}
    (hsplit : scopes = front ++ scope :: outer) {key : String} {value : Expr}
    (hvalue : scope.property? key = some value) :
    s.body? (childPath scope.path key) =
      some (suspensionAt (scope :: outer) (childPath scope.path key) value) := by
  obtain ⟨around, path, standing, hstands, rfl⟩ := hoccurs.exists_stands .root
  have hscope : scope ∈ scopesAt around path standing := hsplit ▸ by simp
  have hbelow : Below name scope.path :=
    (within_documentBindings hstands.mem).scopes scope.path (List.mem_map_of_mem hscope)
  rw [h.only _ (hbelow.child key)]
  exact find?_path hnodup (hstands.mem_of_property hsplit hvalue)

/-! ## Every request -/

/-- At a stage names have their values by the text around: a name that no lambda around binds is the
property of the innermost scope that declares it, then a builtin, then unknown, and a name with dots
is a property of the scope that many scopes out. What is bound to a property of a scope is the value
that it has there. -/
structure ReadByText (host : Host) (left : Nat) (frame : Frame) (p : Stage) (scopes : List Scope)
    (names : List String) (e : Expr) : Prop where
  name : ∀ span key, e = .identifier span key → key ∉ names →
    p.store.exec (behaviour host) (eval host left (innerOf host left) frame e p.made).run =
      p.store.exec (behaviour host) (lexicalLookup left scopes frame span key p.made).run
  relative : ∀ span level key, e = .relative span level key →
    p.store.exec (behaviour host) (eval host left (innerOf host left) frame e p.made).run =
      p.store.exec (behaviour host) (lexicalRelative left scopes span level key p.made).run
  property : ∀ front scope outer, scopes = front ++ scope :: outer → ∀ key value,
    scope.property? key = some value → p.store.body? (childPath scope.path key) =
      some (suspensionAt (scope :: outer) (childPath scope.path key) value)

/-- In a frame that shows where an expression of the document occurs, names are read by the text. -/
theorem Frame.Shows.readByText {frame : Frame} (h : frame.Shows name root scopes names e)
    {p : Stage} (hstore : p.store.Confines host name root)
    (hnodup : ((documentBindings name root).map (·.path)).Nodup) (hdots : root.DotFree)
    (hroot : root.WellFormed) (left : Nat) : ReadByText host left frame p scopes names e := by
  have he : e.WellFormed := hroot.part h.occurs.partOf
  have hbound : ∀ key, isName key = true → ∀ scope ∈ scopes,
      p.store.contains (childPath scope.path key) = scope.declares key := fun key hkey _ hscope =>
    hstore.contains hnodup hdots h.occurs hscope (dot_not_mem_of_isName hkey)
  refine ⟨?_, ?_, fun front scope outer hsplit key value hvalue => ?_⟩
  · rintro span key rfl hunbound
    have henv : frame.env.lookup key = none := by
      rw [List.lookup_eq_none_iff]
      intro entry hentry
      rw [bne_iff_ne]
      rintro rfl
      exact hunbound (h.params ▸ List.mem_map_of_mem hentry)
    exact exec_lookup (behaviour host) h.paths (hbound key he.1) henv left span p.made
  · rintro span level key rfl
    exact exec_lookupRelative (behaviour host) h.paths (hbound key he) left span level p.made
  · exact hstore.property hnodup h.occurs hsplit hvalue

/-- A document without dots in its keys is loaded into a new session under a name apart from the
files. Whatever was requested before, whenever a request comes to evaluate an expression, and so
fails with what this fails with, the frame shows where the expression occurs, in the document or in
one of a file. An expression of the document occurs in one place of it only, and names are read by
the text around this place: wherever a lambda was called and whoever asked for a binding, its body
is evaluated in the object literals and below the parameters that it was written in. -/
theorem names_are_lexical {s : Session} (h : s.LoadedApart host name root) (hdots : root.DotFree)
    (earlier : List String) {path : String} {y : Scene}
    (hreached : ReflTransGen (Inside host)
      (.request host.maxDepth path, ⟨(s.requests earlier).store, 0⟩) y)
    {left : Nat} {frame : Frame} (hy : y.1 = .expression left frame e) :
    (∀ cause span, y.1.Fails host y.2 (.runtime ⟨cause, some span⟩) →
      ((s.requests earlier).value path).1 = .error (.runtime ⟨cause, some span⟩)) ∧
    ((∃ scopes names, frame.Shows name root scopes names e ∧
        (∀ scopes' names', OccursIn name root scopes' names' e →
          scopes' = scopes ∧ names' = names) ∧
        ReadByText host left frame y.2 scopes names e) ∨
      ∃ bytes inside scopes names, host.Readable bytes ∧
        parse host.maxParseDepth bytes = .ok inside ∧
        frame.Shows (host.contentName bytes) inside scopes names e) := by
  refine ⟨fun _ _ => h.value_eq_error earlier hreached, ?_⟩
  have hbears := h.bears earlier hreached
  obtain ⟨limits, bytes, hparse, -⟩ := h.loads
  obtain ⟨name', root', scopes, names, hmeets, hshows⟩ := Session.shows_of_bears hbears hy
  cases hmeets with
  | loaded =>
    refine .inl ⟨scopes, names, hshows, fun scopes' names' hoccurs => ?_, ?_⟩
    · exact hshows.occurs.unique (apart_of_parse hparse) hoccurs
    · exact hshows.readByText hbears.fits.1 h.nodup hdots (wellFormed_of_parse hparse) left
  | file hread hparse' => exact .inr ⟨_, _, scopes, names, hread, hparse', hshows⟩

/-- A host without files. -/
def fileless : Host := ⟨.memory [], Sha256.digest, 64, 100⟩

/-- A document in which a lambda is called from another object literal than the one it is written
in. -/
def calling : Bytes := Utf8.encode "\x7bc:true,f:(x)=>c,d:\x7bc:false,r:f(null)\x7d\x7d"

/-- The outer object literal. -/
def callingScope : Scope :=
  ⟨"m", [.property "c" (.boolean ⟨3, 7⟩ true),
    .property "f" (.lambda ⟨10, 16⟩ ["x"] (.identifier ⟨15, 16⟩ "c")),
    .property "d" (.object ⟨19, 38⟩ [.property "c" (.boolean ⟨22, 27⟩ false),
      .property "r" (.call ⟨30, 37⟩ (.identifier ⟨30, 31⟩ "f") [.null ⟨32, 36⟩])])]⟩

def callingRoot : Expr := .object ⟨0, 39⟩ callingScope.members

def callingSession : Session := ((Session.new fileless {}).loadSource "m" calling).2

theorem loadedApart_calling : callingSession.LoadedApart fileless "m" callingRoot where
  spares := fileless.spares_of_head (by decide)
  loads := ⟨{}, calling, by decide +kernel, Prod.ext (by decide +kernel) rfl⟩

theorem store_callingSession :
    callingSession.store = (Store.empty {}).addAll (documentBindings "m" callingRoot) := by
  have hparse : parse fileless.maxParseDepth calling = .ok callingRoot := by decide +kernel
  exact congrArg Session.store
    (Session.eq_of_loadSource hparse (Prod.ext (by decide +kernel) rfl)).2

/-- The binding that calls the lambda. -/
def callingBinding : Suspension :=
  ⟨"m.d.r", ["m.d", "m"],
    .expression (.call ⟨30, 37⟩ (.identifier ⟨30, 31⟩ "f") [.null ⟨32, 36⟩])⟩

/-- The stage from which the body of the lambda is evaluated: the binding that calls it is under
way, and the lambda was asked for. -/
def callingStage : Stage :=
  ⟨((callingSession.store.start "m.d.r").value (behaviour fileless) 63 "m.f").2, 0⟩

/-- The body of the lambda is evaluated for the binding that calls it. -/
theorem body_is_reached :
    ReflTransGen (Inside fileless) (.request 64 "m.d.r", ⟨callingSession.store, 0⟩)
      (.expression 62 ⟨"m.d.r", ["m"], [("x", .null)]⟩ (.identifier ⟨15, 16⟩ "c"),
        callingStage) := by
  have hforce : callingSession.store.reply "m.d.r" = .run callingBinding := by
    rw [store_callingSession]
    rfl
  have hcallee : Succeeds fileless
      (eval fileless 63 (innerOf fileless 63) callingBinding.frame (.identifier ⟨30, 31⟩ "f"))
      ⟨callingSession.store.start "m.d.r", 0⟩
      (.function ⟨"m.f", 0⟩ (.lambda ["x"] (.identifier ⟨15, 16⟩ "c") ["m"] [])) callingStage := by
    unfold callingStage
    rw [store_callingSession]
    rfl
  have hargs : Succeeds fileless
      (evalList fileless 63 (innerOf fileless 63) callingBinding.frame [.null ⟨32, 36⟩])
      callingStage [.null] callingStage := rfl
  have htask : ReflTransGen (Inside fileless) (.request 64 "m.d.r", ⟨callingSession.store, 0⟩) _ :=
    .tail (.single (.force hforce)) (.task rfl)
  exact .tail (.tail htask (.call hcallee hargs)) (.lambda rfl)

/-- The body finds what the literal has that it was written in, and not what the one of its caller
has. -/
theorem names_are_lexical_in_calling :
    (callingSession.value "m.d.r").1 = .ok (.boolean true) ∧
      OccursIn "m" callingRoot [callingScope] ["x"] (.identifier ⟨15, 16⟩ "c") ∧
      ReadByText fileless 62 ⟨"m.d.r", ["m"], [("x", .null)]⟩ callingStage [callingScope] ["x"]
        (.identifier ⟨15, 16⟩ "c") := by
  have hdots : callingRoot.DotFree := by
    simp [Expr.DotFree, Member.AllDotFree, callingRoot, callingScope]
  have hf : lastValue? "f" callingScope.members =
    some (.lambda ⟨10, 16⟩ ["x"] (.identifier ⟨15, 16⟩ "c")) := rfl
  have hoccurs : OccursIn "m" callingRoot [callingScope] ["x"] (.identifier ⟨15, 16⟩ "c") :=
    .property hf (.alone (fun _ _ => Expr.noConfusion) (.inside List.mem_cons_self .self))
  refine ⟨eq_ok_of_boolean? (by decide +kernel), hoccurs, ?_⟩
  rcases (names_are_lexical loadedApart_calling hdots [] body_is_reached rfl).2 with
    ⟨scopes, names, -, hunique, hread⟩ | ⟨bytes, _, _, _, ⟨path, hfile⟩, _⟩
  · obtain ⟨rfl, rfl⟩ := hunique _ _ hoccurs
    exact hread
  · cases hfile

/-! ## A key with a dot -/

/-- A document in which a key with a dot looks like the path of a property of another literal. -/
def crossed : Bytes := Utf8.encode "\x7b inner: \x7b x: .y \x7d, \"inner.y\": true \x7d"

/-- The inner object literal, which has the property `x` only. -/
def crossedInner : Scope := ⟨"doc.inner", [.property "x" (.relative ⟨14, 16⟩ 0 "y")]⟩

def crossedRoot : Expr :=
  .object ⟨0, 37⟩ [.property "inner" (.object ⟨9, 18⟩ crossedInner.members),
    .property "inner.y" (.boolean ⟨31, 35⟩ true)]

/-- A reference that stays in its own object literal finds a property of the literal around it,
though its own has none of this name: the key with a dot is bound where the property would be. -/
theorem crossed_reference_is_found :
    parse fileless.maxParseDepth crossed = .ok crossedRoot ∧
      (∃ around, Stands "doc" crossedRoot (crossedInner :: around) "doc.inner.x"
        (.relative ⟨14, 16⟩ 0 "y")) ∧
      crossedInner.declares "y" = false ∧
      ((Session.new fileless {}).loadSource "doc" crossed).1 = .ok () ∧
      (((Session.new fileless {}).loadSource "doc" crossed).2.value "doc.inner.x").1 =
        .ok (.boolean true) := by
  have hinner : Stands "doc" crossedRoot _ (childPath "doc" "inner") _ := .property .root rfl
  have hx : Stands "doc" crossedRoot _ (childPath (childPath "doc" "inner") "x") _ :=
    .property hinner rfl
  exact ⟨by decide +kernel, ⟨_, hx⟩, rfl, by decide +kernel,
    eq_ok_of_boolean? (by decide +kernel)⟩

end LazyConfig
