-- What reading ends with: a fault, or a tree and the tokens that are left. What is claimed of these
-- has to be kept by passing over a token, to hold of each fault that can be raised there, and to be
-- kept by each way to build a tree from trees of the level inside.
-- Main statement: what reading an expression ends with, at every level.
import LazyConfig.Proofs.Source.Spreads

namespace LazyConfig

/-! ## Tokens, faults and trees -/

/-- The tokens that may be ahead of a reader, and the faults that it may raise there. -/
structure Ahead (S : List Token → Prop) (F : Fault → Prop) : Prop where
  next {t : Token} {rest : List Token} : S (t :: rest) → t.kind ≠ .eof → S rest
  unexpected {ts : List Token} (expected : Expected) : S ts → F (Grammar.unexpected expected ts)
  contents {t : Token} {rest : List Token} {f : Fault} : S (t :: rest) →
    t.kind = .string ∨ t.kind = .template → Grammar.contents t = .error f → F f
  tooDeep {ts : List Token} (limit depth : Nat) : S ts →
    F ⟨.tooDeep depth limit, (Grammar.peek ts).span⟩

/-- What the trees are like that the rules of one level read. -/
structure Shape where
  chain : Expr → Prop
  operand : Expr → Prop
  /-- An operand, and operators that bind at least so tightly. -/
  climbing : Nat → Expr → Prop

/-- A member of an object literal, from the level inside. -/
def Shape.Holds (shape : Shape) : Member → Prop
  | .property _ value => shape.climbing 0 value
  | .spread value => shape.chain value

/-- Each way to build a tree builds one of the outer shape from trees of the inner one. -/
structure Shape.Builds (inner outer : Shape) : Prop where
  number (s : Span) (text : String) : outer.chain (.number s text)
  string (s : Span) (text : String) : outer.chain (.string s text)
  blob (s : Span) (form : BlobForm) (text : String) : outer.chain (.blob s form text)
  word (t : Token) : outer.chain (Grammar.word t)
  relative (s : Span) (level : Nat) (name : String) : outer.chain (.relative s level name)
  group {e : Expr} : inner.climbing 0 e → outer.chain e
  lambda {e : Expr} (s : Span) (params : List String) : inner.climbing 0 e →
    outer.chain (.lambda s params e)
  array {es : List Expr} (s : Span) : (∀ e ∈ es, inner.climbing 0 e) → outer.chain (.array s es)
  object {ms : List Member} (s : Span) : (∀ m ∈ ms, inner.Holds m) → outer.chain (.object s ms)
  call {e : Expr} {es : List Expr} (s : Span) : outer.chain e → (∀ e ∈ es, inner.climbing 0 e) →
    outer.chain (.call s e es)
  plain {e : Expr} : outer.chain e → outer.operand e
  unary {e : Expr} (s : Span) (op : UnaryOp) : inner.operand e → outer.operand (.unary s op e)
  single {e : Expr} (least : Nat) : outer.operand e → outer.climbing least e
  binary {l r : Expr} {least : Nat} (s : Span) (op : BinaryOp) : outer.climbing least l →
    least ≤ op.precedence → outer.climbing (op.precedence + 1) r →
    outer.climbing least (.binary s op l r)

/-- What the trees are like that are read with each number of levels inside. -/
structure Shape.Tower (shapes : Nat → Shape) : Prop where
  /-- With no level inside, there are no trees from it. -/
  bottom : Shape.Builds ⟨fun _ => False, fun _ => False, fun _ _ => False⟩ (shapes 0)
  step (n : Nat) : (shapes n).Builds (shapes (n + 1))

/-- Reading ends with such a fault, or with such a tree and such tokens left. -/
def Ends {α : Type} {n : Nat} (S : List Token → Prop) (F : Fault → Prop) (V : α → Prop) :
    Except Fault (Parsed α n) → Prop
  | .error f => F f
  | .ok a => V a.value ∧ S a.rest

variable {S : List Token → Prop} {F : Fault → Prop}

/-- Reading goes on with what was read. -/
theorem Ends.bind {α β : Type} {n m : Nat} {V : α → Prop} {W : β → Prop}
    {x : Except Fault (Parsed α n)} {f : Parsed α n → Except Fault (Parsed β m)}
    (h : Ends S F V x) (hf : ∀ a, V a.value → S a.rest → Ends S F W (f a)) :
    Ends S F W (x >>= f) := by
  cases x with
  | error e => exact h
  | ok a => exact hf a h.1 h.2

theorem Ends.mono {α : Type} {n : Nat} {V W : α → Prop} {x : Except Fault (Parsed α n)}
    (h : Ends S F V x) (hVW : ∀ v, V v → W v) : Ends S F W x := by
  cases x with
  | error e => exact h
  | ok a => exact ⟨hVW _ h.1, h.2⟩

theorem Ends.error {α : Type} {n : Nat} {V : α → Prop} {x : Except Fault (Parsed α n)} {f : Fault}
    (h : Ends S F V x) (hx : x = .error f) : F f := by
  subst hx
  exact h

theorem Ends.ok {α : Type} {n : Nat} {V : α → Prop} {x : Except Fault (Parsed α n)}
    {a : Parsed α n} (h : Ends S F V x) (hx : x = .ok a) : V a.value ∧ S a.rest := by
  subst hx
  exact h

/-- What the rules of one level end with. -/
structure Grammar.Ends (S : List Token → Prop) (F : Fault → Prop) (shape : Shape) (g : Grammar) :
    Prop where
  expression {ts : List Token} : S ts → LazyConfig.Ends S F (shape.climbing 0) (g.expression ts)
  unary {ts : List Token} : S ts → LazyConfig.Ends S F shape.operand (g.unary ts)
  chain {ts : List Token} : S ts → LazyConfig.Ends S F shape.chain (g.chain ts)

/-- The level inside ends so, if there is one. -/
structure Grammar.InsideEnds (S : List Token → Prop) (F : Fault → Prop) (shape : Shape)
    (inside : Grammar.Inside) : Prop where
  error {ts : List Token} {f : Fault} : S ts → inside ts = .error f → F f
  ok {ts : List Token} {g : Grammar} : S ts → inside ts = .ok g → Grammar.Ends S F shape g

namespace Ahead

variable (ahead : Ahead S F) {t : Token} {ts rest : List Token}

include ahead

/-! ## Single tokens -/

theorem next_symbol {s : String} (h : S (t :: rest)) (ht : t.isSymbol s = true) : S rest :=
  ahead.next h (by simp [(Token.isSymbol_iff.mp ht).1])

theorem ends_symbol (s : String) (h : S ts) : Ends S F (fun _ => True) (Grammar.symbol s ts) := by
  cases ts with
  | nil => exact ahead.unexpected _ h
  | cons t rest =>
    simp only [Grammar.symbol]
    split
    · next ht => exact ⟨trivial, ahead.next_symbol h ht⟩
    · exact ahead.unexpected _ h

/-- What a string stands for is read, or it is at fault. -/
theorem ends_contents {α : Type} {n : Nat} {V : α → Prop} {f : String → Except Fault (Parsed α n)}
    (h : S (t :: rest)) (ht : t.kind = .string ∨ t.kind = .template)
    (hf : ∀ text, Ends S F V (f text)) : Ends S F V (Grammar.contents t >>= f) := by
  cases htext : Grammar.contents t with
  | error e => exact ahead.contents h ht htext
  | ok text => exact hf text

/-! ## Lists with commas -/

theorem ends_delimited {α : Type} {V : α → Prop} (close : String) {item : Parser α}
    (hitem : ∀ ts, S ts → Ends S F V (item ts)) {ts : List Token} (h : S ts) :
    Ends S F (∀ v ∈ ·, V v) (Grammar.delimited close item ts) := by
  fun_induction Grammar.delimited close item ts with
  | case1 ts => exact ⟨by simp, h⟩
  | case2 ts hopen e hx => exact (hitem ts h).error hx
  | case3 ts hopen first shorter hx =>
    obtain ⟨hv, hrest⟩ := (hitem ts h).ok hx
    exact ⟨by simpa using hv, hrest⟩
  | case4 ts hopen first t rest shorter hx hcomma e hmore ih =>
    obtain ⟨hv, hrest⟩ := (hitem ts h).ok hx
    exact (ih (ahead.next_symbol hrest hcomma)).error hmore
  | case5 ts hopen first t rest shorter hx hcomma others left shorter' hmore ih =>
    obtain ⟨hv, hrest⟩ := (hitem ts h).ok hx
    obtain ⟨hvs, hleft⟩ := (ih (ahead.next_symbol hrest hcomma)).ok hmore
    exact ⟨List.forall_mem_cons.mpr ⟨hv, hvs⟩, hleft⟩
  | case6 ts hopen first t rest shorter hx hcomma =>
    obtain ⟨hv, hrest⟩ := (hitem ts h).ok hx
    exact ⟨by simpa using hv, hrest⟩

/-! ## Lambda parameters -/

theorem next_parameters {ts : List Token} {names : List String} {left : List Token} (h : S ts)
    (hp : Grammar.parameters ts = some (names, left)) : S left := by
  fun_induction Grammar.parameters ts generalizing names with
  | case1 | case3 | case6 | case7 => cases hp
  | case2 t rest hclose =>
    cases hp
    exact ahead.next_symbol h hclose
  | case4 t hopen hkind u after hcomma ih =>
    obtain ⟨⟨others, left'⟩, hmore, heq⟩ := Option.map_eq_some_iff.mp hp
    cases heq
    exact ih (ahead.next_symbol (ahead.next h (by simp [hkind])) hcomma) hmore
  | case5 t hopen hkind u after hcomma hclose =>
    cases hp
    exact ahead.next_symbol (ahead.next h (by simp [hkind])) hclose

theorem next_lambdaHead {names : List String} {left : List Token} (h : S ts)
    (hp : Grammar.lambdaHead ts = some (names, left)) : S left := by
  unfold Grammar.lambdaHead at hp
  split at hp
  · next hparameters =>
    split at hp
    · next harrow =>
      cases hp
      exact ahead.next_symbol (ahead.next_parameters h hparameters) harrow
    · cases hp
  · cases hp

/-! ## One level of nesting -/

variable {inner outer : Shape} (builds : inner.Builds outer) {g : Grammar} (hg : g.Ends S F inner)

include builds hg

theorem ends_group (t : Token) (h : S ts) : Ends S F outer.chain (g.group t ts) := by
  unfold Grammar.group
  split
  · next hhead =>
    refine (hg.expression (ahead.next_lambdaHead h hhead)).bind fun a hv hrest => ?_
    exact ⟨builds.lambda _ _ hv, hrest⟩
  · refine (hg.expression h).bind fun a hv hrest => ?_
    exact (ahead.ends_symbol ")" hrest).bind fun _ _ hleft => ⟨builds.group hv, hleft⟩

theorem ends_array (t : Token) (h : S ts) : Ends S F outer.chain (g.array t ts) := by
  unfold Grammar.array
  refine (ahead.ends_delimited "]" (fun _ => hg.expression) h).bind fun a hvs hrest => ?_
  exact (ahead.ends_symbol "]" hrest).bind fun _ _ hleft => ⟨builds.array _ hvs, hleft⟩

omit builds in
theorem ends_property (key : String) (h : S ts) :
    Ends S F inner.Holds (g.property key ts) := by
  unfold Grammar.property
  refine (ahead.ends_symbol ":" h).bind fun _ _ hrest => ?_
  exact (hg.expression hrest).bind fun a hv hleft => ⟨hv, hleft⟩

omit builds in
theorem ends_member (h : S ts) : Ends S F inner.Holds (g.member ts) := by
  cases ts with
  | nil => exact ahead.unexpected _ h
  | cons t rest =>
    simp only [Grammar.member]
    split
    · next hkind =>
      split
      · exact (hg.chain h).bind fun a hv hleft => ⟨hv, hleft⟩
      · exact ahead.ends_property hg t.text (ahead.next h (by simp [hkind]))
    · next hkind =>
      exact ahead.ends_contents h (.inl hkind) fun key =>
        ahead.ends_property hg key (ahead.next h (by simp [hkind]))
    · next hkind =>
      exact ahead.ends_contents h (.inr hkind) fun key =>
        ahead.ends_property hg key (ahead.next h (by simp [hkind]))
    · exact ahead.unexpected _ h

theorem ends_object (t : Token) (h : S ts) : Ends S F outer.chain (g.object t ts) := by
  unfold Grammar.object
  refine (ahead.ends_delimited "\x7d" (fun _ => ahead.ends_member hg) h).bind fun a hvs hrest => ?_
  exact (ahead.ends_symbol "\x7d" hrest).bind fun _ _ hleft => ⟨builds.object _ hvs, hleft⟩

/-! ## Call chains and operators -/

omit hg

variable {inside : Grammar.Inside} (hi : Grammar.InsideEnds S F inner inside)

omit builds in
theorem ends_relative (hword : ∀ s level name, outer.chain (.relative s level name)) (dots : Token)
    (h : S ts) : Ends S F outer.chain (Grammar.relative dots ts) := by
  cases ts with
  | nil => exact ahead.unexpected _ h
  | cons t rest =>
    simp only [Grammar.relative]
    split
    · next hkind => exact ⟨hword _ _ _, ahead.next h (by simp [hkind])⟩
    · exact ahead.unexpected _ h

include hi

omit ahead builds in
/-- Reading goes on one level inside, if there is one. -/
theorem ends_inside {α : Type} {n : Nat} {V : α → Prop} (h : S ts)
    {f : Grammar → Except Fault (Parsed α n)}
    (hf : ∀ g, Grammar.Ends S F inner g → Ends S F V (f g)) : Ends S F V (inside ts >>= f) := by
  cases hx : inside ts with
  | error e => exact hi.error h hx
  | ok g => exact hf g (hi.ok h hx)

theorem ends_primary (h : S ts) : Ends S F outer.chain (Grammar.primary inside ts) := by
  cases ts with
  | nil => exact ahead.unexpected _ h
  | cons t rest =>
    have hnext : t.kind ≠ .eof → S rest := ahead.next h
    simp only [Grammar.primary]
    cases hkind : t.kind with
    | number => exact ⟨builds.number _ _, hnext (by simp [hkind])⟩
    | string =>
      exact ahead.ends_contents h (.inl hkind) fun text =>
        ⟨builds.string _ _, hnext (by simp [hkind])⟩
    | template =>
      exact ahead.ends_contents h (.inr hkind) fun text =>
        ⟨builds.string _ _, hnext (by simp [hkind])⟩
    | blob form => exact ⟨builds.blob _ _ _, hnext (by simp [hkind])⟩
    | identifier => exact ⟨builds.word t, hnext (by simp [hkind])⟩
    | dots => exact ahead.ends_relative builds.relative t (hnext (by simp [hkind]))
    | punct =>
      have hrest := hnext (by simp [hkind])
      dsimp only
      split
      · exact ends_inside hi h fun g hg => ahead.ends_group builds hg t hrest
      split
      · exact ends_inside hi h fun g hg => ahead.ends_array builds hg t hrest
      split
      · exact ends_inside hi h fun g hg => ahead.ends_object builds hg t hrest
      · exact ahead.unexpected _ h
    | eof => exact ahead.unexpected _ h

theorem ends_calls {callee : Expr} {ts : List Token} (hv : outer.chain callee) (h : S ts) :
    Ends S F outer.chain (Grammar.calls inside callee ts) := by
  fun_induction Grammar.calls inside callee ts with
  | case1 callee => exact ⟨hv, h⟩
  | case2 callee t rest hopen e hx => exact hi.error (ahead.next_symbol h hopen.1) hx
  | case3 callee t rest hopen g hx e hargs =>
    have hrest := ahead.next_symbol h hopen.1
    have hg := hi.ok hrest hx
    exact (ahead.ends_delimited ")" (fun _ => hg.expression) hrest).error hargs
  | case4 callee t rest hopen g hx args after shorter hargs e hclose =>
    have hrest := ahead.next_symbol h hopen.1
    have hg := hi.ok hrest hx
    obtain ⟨-, hafter⟩ := (ahead.ends_delimited ")" (fun _ => hg.expression) hrest).ok hargs
    exact (ahead.ends_symbol ")" hafter).error hclose
  | case5 callee t rest hopen g hx args after shorter hargs close left shorter' hclose e hmore ih =>
    have hrest := ahead.next_symbol h hopen.1
    have hg := hi.ok hrest hx
    obtain ⟨hvs, hafter⟩ := (ahead.ends_delimited ")" (fun _ => hg.expression) hrest).ok hargs
    obtain ⟨-, hleft⟩ := (ahead.ends_symbol ")" hafter).ok hclose
    exact (ih (builds.call _ hv hvs) hleft).error hmore
  | case6 callee t rest hopen g hx args after shorter hargs close left shorter' hclose value left'
      shorter'' hmore ih =>
    have hrest := ahead.next_symbol h hopen.1
    have hg := hi.ok hrest hx
    obtain ⟨hvs, hafter⟩ := (ahead.ends_delimited ")" (fun _ => hg.expression) hrest).ok hargs
    obtain ⟨-, hleft⟩ := (ahead.ends_symbol ")" hafter).ok hclose
    exact (ih (builds.call _ hv hvs) hleft).ok hmore
  | case7 callee t rest hclosed => exact ⟨hv, h⟩

theorem ends_callChain (h : S ts) : Ends S F outer.chain (Grammar.callChain inside ts) := by
  unfold Grammar.callChain
  refine (ahead.ends_primary builds hi h).bind fun a hv hrest => ?_
  exact (ahead.ends_calls builds hi hv hrest).bind fun _ hv hleft => ⟨hv, hleft⟩

theorem ends_operand (h : S ts) : Ends S F outer.operand (Grammar.operand inside ts) := by
  have hchain : ∀ ts, S ts → Ends S F outer.operand (Grammar.callChain inside ts) := fun ts h =>
    (ahead.ends_callChain builds hi h).mono fun _ => builds.plain
  cases ts with
  | nil => exact hchain [] h
  | cons t rest =>
    simp only [Grammar.operand]
    split
    · next op hop =>
      have hrest : S rest := by
        refine ahead.next h fun hkind => ?_
        simp [Grammar.unaryOp?, hkind] at hop
      refine ends_inside hi hrest fun g hg => ?_
      exact (hg.unary hrest).bind fun _ hv hleft => ⟨builds.unary _ _ hv, hleft⟩
    · exact hchain _ h

omit hi

theorem ends_climb {atom : Parser Expr} (ha : ∀ ts, S ts → Ends S F outer.operand (atom ts))
    (least : Nat) (ts : List Token) (h : S ts) :
    Ends S F (outer.climbing least) (Grammar.climb atom least ts) := by
  have hnext : ∀ {t rest op}, Grammar.binaryOp? t = some op → S (t :: rest) → S rest :=
    fun {t _ _} hop h => ahead.next h fun hkind => by simp [Grammar.binaryOp?, hkind] at hop
  refine Grammar.climb.induct atom
    (fun least left ts => outer.climbing least left → S ts →
      Ends S F (outer.climbing least) (Grammar.climbFrom atom least left ts))
    (fun least ts => S ts → Ends S F (outer.climbing least) (Grammar.climb atom least ts))
    ?done ?other ?looser ?rightFault ?moreFault ?more ?operandFault ?restFault ?rest least ts h
  case done =>
    intro least left hv h
    rw [Grammar.climbFrom]
    exact ⟨hv, h⟩
  case other =>
    intro least left t rest hop hv h
    simp only [Grammar.climbFrom, hop]
    exact ⟨hv, h⟩
  case looser =>
    intro least left t rest op hop hlt hv h
    simp only [Grammar.climbFrom, hop, if_pos hlt]
    exact ⟨hv, h⟩
  case rightFault =>
    intro least left t rest op hop hle e hx ih hv h
    simp only [Grammar.climbFrom, hop, if_neg hle, hx]
    exact (ih (hnext hop h)).error hx
  case moreFault =>
    intro least left t rest op hop hle right after shorter hx e hmore ih ihmore hv h
    obtain ⟨hvr, hafter⟩ := (ih (hnext hop h)).ok hx
    simp only [Grammar.climbFrom, hop, if_neg hle, hx, hmore]
    exact (ihmore (builds.binary _ op hv (Nat.le_of_not_lt hle) hvr) hafter).error hmore
  case more =>
    intro least left t rest op hop hle right after shorter hx value left' shorter' hmore
      ih ihmore hv h
    obtain ⟨hvr, hafter⟩ := (ih (hnext hop h)).ok hx
    simp only [Grammar.climbFrom, hop, if_neg hle, hx, hmore]
    exact (ihmore (builds.binary _ op hv (Nat.le_of_not_lt hle) hvr) hafter).ok hmore
  case operandFault =>
    intro least ts e hx h
    simp only [Grammar.climb, hx]
    exact (ha ts h).error hx
  case restFault =>
    intro least ts left rest shorter hx e hmore ih h
    obtain ⟨hv, hrest⟩ := (ha ts h).ok hx
    simp only [Grammar.climb, hx, hmore]
    exact (ih (builds.single least hv) hrest).error hmore
  case rest =>
    intro least ts left rest shorter hx value after shorter' hmore ih h
    obtain ⟨hv, hrest⟩ := (ha ts h).ok hx
    simp only [Grammar.climb, hx, hmore]
    exact (ih (builds.single least hv) hrest).ok hmore

/-! ## All levels -/

omit builds

theorem ends_ofInside {inside : Grammar.Inside} (builds : inner.Builds outer)
    (hi : Grammar.InsideEnds S F inner inside) :
    Grammar.Ends S F outer (Grammar.ofInside inside) where
  expression h := ahead.ends_climb builds (fun _ => ahead.ends_operand builds hi) 0 _ h
  unary h := ahead.ends_operand builds hi h
  chain h := ahead.ends_callChain builds hi h

theorem ends_levels {shapes : Nat → Shape} (tower : Shape.Tower shapes) (limit n depth : Nat) :
    Grammar.Ends S F (shapes n) (Grammar.levels limit n depth) := by
  induction n generalizing depth with
  | zero =>
    refine ahead.ends_ofInside tower.bottom ⟨fun {ts f} h hf => ?_, fun _ hg => nomatch hg⟩
    cases hf
    exact ahead.tooDeep limit _ h
  | succ n ih =>
    refine ahead.ends_ofInside (tower.step n) ⟨fun _ hf => (nomatch hf), fun _ hg => ?_⟩
    cases hg
    exact ih (depth + 1)

/-- Reading all tokens ends with such a fault, or with such a tree. -/
theorem ends_parseTokens {shapes : Nat → Shape} (tower : Shape.Tower shapes) (limit : Nat)
    (ts : List Token) (h : S ts) :
    match parseTokens limit ts with
    | .error f => F f
    | .ok e => (shapes limit).climbing 0 e := by
  have hg := (ahead.ends_levels tower limit limit 0).expression h
  simp only [parseTokens, Grammar.upTo, Nat.sub_zero, bind, Except.bind]
  cases hx : (Grammar.levels limit limit 0).expression ts with
  | error f => exact hg.error hx
  | ok a =>
    obtain ⟨hv, hrest⟩ := hg.ok hx
    dsimp only
    split
    · next hdone =>
      split at hdone
      · cases hdone
      · cases hdone
        exact ahead.unexpected _ hrest
    · next hdone =>
      split at hdone
      · cases hdone
        exact hv
      · cases hdone

end Ahead

/-! ## Sources -/

theorem parse_of_tokenize {bytes : Bytes} {ts : List Token} (h : tokenize bytes = .ok ts)
    (limit : Nat) :
    parse limit bytes = (parseTokens limit ts).mapError fun fault => ⟨fault, Utf8.shown bytes⟩ := by
  unfold parse
  rw [h]
  rfl

theorem parse_of_tokenize_error {bytes : Bytes} {e : ParseError} (h : tokenize bytes = .error e)
    (limit : Nat) : parse limit bytes = .error e := by
  unfold parse
  rw [h]
  rfl

/-- Reading a source results in the tree that its tokens are read as. -/
theorem exists_tokens_of_parse {limit : Nat} {bytes : Bytes} {e : Expr}
    (h : parse limit bytes = .ok e) :
    ∃ ts, tokenize bytes = .ok ts ∧ parseTokens limit ts = .ok e := by
  cases hts : tokenize bytes with
  | error e' =>
    rw [parse_of_tokenize_error hts] at h
    cases h
  | ok ts =>
    rw [parse_of_tokenize hts] at h
    cases he : parseTokens limit ts with
    | error f =>
      rw [he] at h
      cases h
    | ok e' =>
      rw [he] at h
      cases h
      exact ⟨ts, rfl, he⟩

/-- Reading a source fails where the text is split or where the tokens are read. -/
theorem parse_error_cases {limit : Nat} {bytes : Bytes} {e : ParseError}
    (h : parse limit bytes = .error e) :
    tokenize bytes = .error e ∨ ∃ ts f, tokenize bytes = .ok ts ∧ parseTokens limit ts = .error f ∧
      e = ⟨f, Utf8.shown bytes⟩ := by
  cases hts : tokenize bytes with
  | error e' =>
    rw [parse_of_tokenize_error hts] at h
    cases h
    exact .inl rfl
  | ok ts =>
    rw [parse_of_tokenize hts] at h
    cases hf : parseTokens limit ts with
    | error f =>
      rw [hf] at h
      cases h
      exact .inr ⟨ts, f, rfl, hf, rfl⟩
    | ok e' =>
      rw [hf] at h
      cases h

end LazyConfig
