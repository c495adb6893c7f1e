-- Requests to a session into which documents were loaded. What a request for a path results in
-- is what the path means, so it does not matter which requests were made before it.
-- Main statement: two sequences of requests that end with the same path end with the same
-- outcome.
import LazyConfig.Proofs.Session.Loaded

namespace LazyConfig

open Store

/-! ## Requests -/

namespace Session

/-- The session after requests for values, whatever they result in. -/
def requests (s : Session) : List String → Session
  | [] => s
  | path :: later => (s.value path).2.requests later

end Session

/-- Whether a request ends because a quota or the depth limit ran out. -/
def ranOut {α : Type} : Except EvalError α → Bool
  | .ok _ => false
  | .error e => e.isResource

theorem eq_ok_of_boolean? {r : Except EvalError Value} {b : Bool}
    (h : r.toOption.bind Value.boolean? = some b) : r = .ok (.boolean b) := by
  cases r with
  | error e => cases h
  | ok v =>
    cases v with
    | boolean c => rw [Option.some.inj h]
    | _ => cases h

namespace Library

variable {L : Library} {s : Session}

/-- Between requests: the session agrees with the library, and nothing is in progress. -/
structure Idle (L : Library) (s : Session) : Prop where
  host : s.host = L.host
  agrees : L.Agrees s.store
  disciplined : Disciplined s.store []

/-- A request leaves the session idle and takes nothing from it. -/
theorem Idle.value (h : L.Idle s) (path : String) :
    L.Idle (s.value path).2 ∧ s.store.Extends (s.value path).2.store := by
  obtain ⟨hdisc, hext⟩ := disciplined_exec (behaviour s.host)
    (.value s.host.maxDepth path .done) h.disciplined
  refine ⟨⟨h.host, ?_, hdisc⟩, hext⟩
  show L.Agrees (s.store.value (behaviour s.host) s.host.maxDepth path).2
  by_cases hc : s.store.contains path = true
  · have htells := (L.faithfulAt s.host.maxDepth).value h.agrees h.disciplined hc
    unfold Faithful at htells
    rw [← h.host] at htells
    exact htells.agrees
  · have hnone : s.store.find? path = none := by simpa [contains_eq] using hc
    rw [value_of_now _ (reply_unknown hnone)]
    exact h.agrees

theorem Idle.requests (h : L.Idle s) (paths : List String) :
    L.Idle (s.requests paths) ∧ s.store.Extends (s.requests paths).store := by
  induction paths generalizing s with
  | nil => exact ⟨h, .refl _⟩
  | cons path later ih =>
    obtain ⟨hnext, hext⟩ := h.value path
    obtain ⟨hend, hext'⟩ := ih hnext
    exact ⟨hend, hext.trans hext'⟩

/-- The outcome of a request is what the path means, unless a quota ran out. -/
theorem Idle.means (h : L.Idle s) {path : String} (hc : s.store.contains path = true)
    (hr : ranOut (s.value path).1 = false) : L.Means [] path (s.value path).1 := by
  have htells := (L.faithfulAt s.host.maxDepth).value h.agrees h.disciplined hc
  unfold Faithful at htells
  rw [← h.host] at htells
  apply settles_value_iff.mp
  have hout : (s.store.exec (behaviour s.host) (Attempt.value s.host.maxDepth path).run).1 =
      (s.value path).1 := rfl
  rw [← hout] at hr ⊢
  generalize s.store.exec (behaviour s.host) (Attempt.value s.host.maxDepth path).run = out
    at htells hr ⊢
  cases htells with
  | ok _ _ hsettles => exact hsettles [] (fun n hn => absurd hn List.not_mem_nil)
  | error _ hsettles => exact hsettles
  | resource _ he => simp [ranOut, he] at hr

end Library

/-! ## The law -/

/-- Into a session whose host tells its files apart, load any documents under names apart from
those of files. For a path that is bound then, any two sequences of requests that end with it end
with the same outcome, the same value or the same error, if neither ends because a quota ran out.
What the requests before it kept, included or failed at never shows. -/
theorem earlier_requests_never_show {host : Host} {limits : Limits}
    {docs : List (String × Bytes)} {s : Session} (hdigest : host.CollisionFree)
    (hnames : ∀ doc ∈ docs, host.Spares doc.1)
    (hload : (Session.new host limits).loadSources docs = (.ok (), s)) {path : String}
    (hpath : s.store.contains path = true) (before before' : List String)
    (hr : ranOut ((s.requests before).value path).1 = false)
    (hr' : ranOut ((s.requests before').value path).1 = false) :
    ((s.requests before).value path).1 = ((s.requests before').value path).1 := by
  have hloaded := loaded_loadSources (s := .new host limits) (loaded_empty host limits) hnames
  rw [hload] at hloaded
  obtain ⟨hhost, hloaded⟩ := hloaded
  have hidle : (hloaded.library hdigest).Idle s :=
    ⟨hhost, hloaded.agrees hdigest, hloaded.idle⟩
  obtain ⟨hend, hext⟩ := hidle.requests before
  obtain ⟨hend', hext'⟩ := hidle.requests before'
  exact (hend.means (hext.contains hpath) hr).unique (hend'.means (hext'.contains hpath) hr')

/-- A host with one file, which holds a text. -/
def oneFile : Host where
  storage := .memory [("l", Utf8.encode "'x'")]

/-- A document of which one property is a name, one includes the file and one is a cycle. -/
def sharing : Bytes := Utf8.encode "\x7ba:b,b:include('l'),c:c\x7d"

def oneDocument : Session := ((Session.new oneFile {}).loadSources [("m", sharing)]).2

theorem collisionFree_oneFile : oneFile.CollisionFree := by
  have honly : ∀ bytes, oneFile.Readable bytes → bytes = Utf8.encode "'x'" := by
    rintro bytes ⟨path, hpath⟩
    simp only [oneFile, Storage.memory, List.lookup_cons, List.lookup_nil] at hpath
    cases hl : path == "l" with
    | true => simpa [hl, eq_comm] using hpath
    | false => simp [hl] at hpath
  intro bytes bytes' hread hread' _
  rw [honly bytes hread, honly bytes' hread']

/-- The first property is the text in the file, and still is after a failed request and one that
includes the file. -/
theorem earlier_requests_never_show_after_a_failure :
    ranOut ((oneDocument.requests ["m.c", "m.b"]).value "m.a").1 = false ∧
      ranOut ((oneDocument.requests []).value "m.a").1 = false ∧
      ((oneDocument.requests []).value "m.a").1.toOption.bind Value.string? = some "x" ∧
      ((oneDocument.requests ["m.c", "m.b"]).value "m.a").1 =
        ((oneDocument.requests []).value "m.a").1 := by
  have hload : (Session.new oneFile {}).loadSources [("m", sharing)] = (.ok (), oneDocument) :=
    Prod.ext (by decide +kernel) rfl
  have hnames : ∀ doc ∈ [("m", sharing)], oneFile.Spares doc.1 := by
    intro doc hdoc
    rw [List.mem_singleton.mp hdoc]
    exact oneFile.spares_of_head (by decide)
  have hr : ranOut ((oneDocument.requests ["m.c", "m.b"]).value "m.a").1 = false := by
    decide +kernel
  have hr' : ranOut ((oneDocument.requests []).value "m.a").1 = false := by decide +kernel
  exact ⟨hr, hr', by decide +kernel, earlier_requests_never_show collisionFree_oneFile hnames
    hload (by decide +kernel) ["m.c", "m.b"] [] hr hr'⟩

end LazyConfig
