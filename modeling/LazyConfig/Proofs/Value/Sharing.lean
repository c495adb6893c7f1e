-- What values cost that share arrays and objects. Measuring goes down into the values in their
-- order and into no container twice, so each container is charged once, wherever it is found first.
-- Main statement: values one after another cost what the containers in them cost, each counted
-- once, and these are the ones that are seen then.
import LazyConfig.Proofs.Value.Shape
import Mathlib.Algebra.GroupWithZero.Nat
import Mathlib.Data.List.Nodup
import Mathlib.Logic.Relation
import Mathlib.Tactic.Tauto

namespace LazyConfig.Value

/-! ## Containers -/

/-- The identity of an array or an object. -/
def container? : Value → Option Identity
  | array id _ => some id
  | object id _ => some id
  | _ => none

/-- The values right inside of an array or an object. -/
def contents : Value → List Value
  | array _ items => items
  | object _ entries => entries.map Prod.snd
  | _ => []

/-- The value is inside of the other one, at any depth, or is the other one. -/
def Within (w v : Value) : Prop :=
  Relation.ReflTransGen (fun outer inside => inside ∈ outer.contents) v w

/-- The array or object is found in the values. -/
def FoundIn (w : Value) (vs : List Value) : Prop := w.container?.isSome ∧ ∃ v ∈ vs, w.Within v

/-- Identities tell the arrays and objects in the values apart. -/
def ToldApart (vs : List Value) : Prop :=
  ∀ v w : Value, v.FoundIn vs → w.FoundIn vs → v.container? = w.container? → v = w

theorem within_of_mem_contents {w inside v : Value} (hmem : inside ∈ v.contents)
    (h : w.Within inside) :
    w.Within v := Relation.ReflTransGen.head hmem h

theorem FoundIn.of_contents {w v : Value} {vs : List Value} (h : w.FoundIn v.contents)
    (hv : v ∈ vs) :
    w.FoundIn vs := by
  obtain ⟨hw, inside, hinside, hwithin⟩ := h
  exact ⟨hw, v, hv, within_of_mem_contents hinside hwithin⟩

theorem FoundIn.mono {w : Value} {vs more : List Value} (h : w.FoundIn vs) (hsub : vs ⊆ more) :
    w.FoundIn more := by
  obtain ⟨hw, v, hv, hwithin⟩ := h
  exact ⟨hw, v, hsub hv, hwithin⟩

theorem foundIn_of_mem {v : Value} {vs : List Value} (hv : v ∈ vs) (h : v.container?.isSome) :
    v.FoundIn vs := ⟨h, v, hv, Relation.ReflTransGen.refl⟩

/-- What is right inside of a container is found where the container is. -/
theorem FoundIn.inside {v inside : Value} {vs : List Value} (h : v.FoundIn vs)
    (hmem : inside ∈ v.contents) (hinside : inside.container?.isSome) : inside.FoundIn vs := by
  obtain ⟨-, top, htop, hwithin⟩ := h
  exact ⟨hinside, top, htop, hwithin.tail hmem⟩

theorem ToldApart.mono {vs more : List Value} (h : ToldApart more) (hsub : vs ⊆ more) :
    ToldApart vs :=
  fun v w hv hw => h v w (hv.mono hsub) (hw.mono hsub)

theorem sizeOf_lt_of_mem_contents {inside v : Value} (h : inside ∈ v.contents) :
    sizeOf inside < sizeOf v := by
  cases v with
  | array id items =>
    have hitem : sizeOf inside < sizeOf items := List.sizeOf_lt_of_mem h
    simp only [array.sizeOf_spec]
    omega
  | object id entries =>
    obtain ⟨⟨key, value⟩, he, rfl⟩ := List.mem_map.mp h
    have hentry := List.sizeOf_lt_of_mem he
    simp only [Prod.mk.sizeOf_spec] at hentry
    simp only [object.sizeOf_spec]
    omega
  | _ => cases h

/-- What holds of a value if it holds of the values right inside of it holds of all values. -/
theorem induction_on_contents {motive : Value → Prop}
    (h : ∀ v, (∀ inside ∈ v.contents, motive inside) → motive v) (v : Value) : motive v := by
  apply h
  intro inside hmem
  have hlt := sizeOf_lt_of_mem_contents hmem
  exact induction_on_contents h inside
  termination_by sizeOf v
  decreasing_by exact hlt

/-! ## What containers cost -/

/-- The cost of a value that is neither an array nor an object. -/
def plainCost : Value → Nat
  | string s => s.length
  | blob bytes => bytes.length
  | array _ _ => 0
  | object _ _ => 0
  | _ => 1

/-- The cost of a container without what is in it: a unit for each place in it, and its keys. -/
def frameCost : Value → Nat
  | array _ items => items.length
  | object _ entries => entries.length + (entries.map fun e => e.1.length).sum
  | _ => 0

/-- The cost of a container with the plain values right inside of it. -/
def ownCost (v : Value) : Nat := v.frameCost + (v.contents.map plainCost).sum

theorem plainCost_of_container {v : Value} (h : v.container?.isSome) : v.plainCost = 0 := by
  cases v with
  | array | object => rfl
  | _ => cases h

/-- The cost is the whole sum, or what it stops at where the sum is larger than the largest
number. -/
def AddsUpTo (cost sum : Nat) : Prop := min sum maxCost ≤ cost ∧ cost ≤ sum

theorem AddsUpTo.refl (n : Nat) : AddsUpTo n n := ⟨Nat.min_le_left _ _, Nat.le_refl n⟩

theorem AddsUpTo.costSum {a b n m : Nat} (h : AddsUpTo a n) (h' : AddsUpTo b m) :
    AddsUpTo (costSum a b) (n + m) := by
  unfold AddsUpTo Value.costSum at *
  omega

theorem AddsUpTo.eq {cost sum : Nat} (h : AddsUpTo cost sum) (hsum : sum ≤ maxCost) :
    cost = sum := by
  unfold AddsUpTo at h
  omega

theorem entriesCost_eq (seen : List Identity) (entries : List (String × Value)) :
    costSum entries.length (entriesCost seen entries).1 =
        costSum (entries.length + (entries.map fun e => e.1.length).sum)
          (itemsCost seen (entries.map Prod.snd)).1 ∧
      (entriesCost seen entries).2 = (itemsCost seen (entries.map Prod.snd)).2 := by
  have hcost : ∀ seen entries, (entriesCost seen entries).1 =
        costSum (entries.map fun e => e.1.length).sum (itemsCost seen (entries.map Prod.snd)).1 ∧
      (entriesCost seen entries).2 = (itemsCost seen (entries.map Prod.snd)).2 := by
    intro seen entries
    induction entries generalizing seen with
    | nil => exact ⟨rfl, rfl⟩
    | cons e rest ih =>
      obtain ⟨hn, hseen⟩ := ih (costAfter seen e.2).2
      simp only [entriesCost, itemsCost, List.map_cons, List.sum_cons, hn, hseen, and_true]
      unfold costSum
      omega
  obtain ⟨hn, hseen⟩ := hcost seen entries
  refine ⟨?_, hseen⟩
  rw [hn]
  unfold costSum
  omega

/-- A container that was not seen costs its frame and what is in it, after it is seen itself. -/
theorem costAfter_container {v : Value} {id : Identity} (hid : v.container? = some id)
    (seen : List Identity) :
    costAfter seen v = if id ∈ seen then (0, seen) else
      (costSum v.frameCost (itemsCost (id :: seen) v.contents).1,
        (itemsCost (id :: seen) v.contents).2) := by
  cases v with
  | array id' items =>
    cases hid
    rfl
  | object id' entries =>
    cases hid
    obtain ⟨hcost, hseen⟩ := entriesCost_eq (id :: seen) entries
    unfold costAfter
    simp only [frameCost, contents, hcost, hseen]
  | _ => cases hid

theorem costAfter_plain {v : Value} (h : v.container? = none) (seen : List Identity) :
    costAfter seen v = (v.plainCost, seen) := by
  cases v with
  | array | object => cases h
  | _ => rfl

/-! ## What is charged -/

/-- These containers are seen for the first time: they are found in the values, none of them was
seen before, and with those that were they are all that is seen now. -/
structure Visits (seen : List Identity) (vs : List Value) (seen' : List Identity)
    (new : List Value) : Prop where
  found : ∀ w ∈ new, w.FoundIn vs
  fresh : ∀ id, some id ∈ new.map container? → id ∉ seen
  nodup : (new.map container?).Nodup
  mem_iff : ∀ id, id ∈ seen' ↔ id ∈ seen ∨ some id ∈ new.map container?

/-- The cost of the values when just these containers are charged, each with the plain values in
it. -/
def total (vs new : List Value) : Nat := (vs.map plainCost).sum + (new.map ownCost).sum

/-- What a value costs is charged for the containers that are seen in it for the first time. -/
def Charged (seen : List Identity) (v : Value) : Prop :=
  ∃ new, Visits seen [v] (costAfter seen v).2 new ∧ AddsUpTo (costAfter seen v).1 (total [v] new)

variable {seen seen' seen'' : List Identity} {v : Value} {vs new more : List Value}

theorem Visits.none (seen : List Identity) (vs : List Value) : Visits seen vs seen [] where
  found := by simp
  fresh := by simp
  nodup := by simp
  mem_iff := by simp

/-- What is seen in a value and then in the others is seen in all of them. -/
theorem Visits.append (h : Visits seen [v] seen' new) (hmore : Visits seen' vs seen'' more) :
    Visits seen (v :: vs) seen'' (new ++ more) where
  found := by
    intro w hw
    rcases List.mem_append.mp hw with hw | hw
    · exact (h.found w hw).mono (by simp)
    · exact (hmore.found w hw).mono (by simp)
  fresh := by
    intro id hid
    rw [List.map_append, List.mem_append] at hid
    rcases hid with hid | hid
    · exact h.fresh id hid
    · exact fun hseen => hmore.fresh id hid ((h.mem_iff id).mpr (.inl hseen))
  nodup := by
    rw [List.map_append, List.nodup_append]
    refine ⟨h.nodup, hmore.nodup, ?_⟩
    rintro a ha b hb rfl
    obtain ⟨w, hw, rfl⟩ := List.mem_map.mp ha
    obtain ⟨id, hid⟩ := Option.isSome_iff_exists.mp (h.found w hw).1
    rw [hid] at ha hb
    exact hmore.fresh id hb ((h.mem_iff id).mpr (.inr ha))
  mem_iff := by
    intro id
    rw [hmore.mem_iff, h.mem_iff, List.map_append, List.mem_append, or_assoc]

/-- A container that was not seen is seen before what is in it. -/
theorem Visits.container {id : Identity} (hid : v.container? = some id) (hnot : id ∉ seen)
    (h : Visits (id :: seen) v.contents seen' new) : Visits seen [v] seen' (v :: new) where
  found := by
    intro w hw
    rcases List.mem_cons.mp hw with rfl | hw
    · exact foundIn_of_mem (by simp) (by simp [hid])
    · exact (h.found w hw).of_contents (by simp)
  fresh := by
    intro other hother
    rw [List.map_cons, List.mem_cons, hid, Option.some.injEq] at hother
    rcases hother with rfl | hother
    · exact hnot
    · exact fun hseen => h.fresh other hother (List.mem_cons_of_mem _ hseen)
  nodup := by
    rw [List.map_cons, List.nodup_cons, hid]
    exact ⟨fun hmem => h.fresh id hmem List.mem_cons_self, h.nodup⟩
  mem_iff := by
    intro other
    rw [h.mem_iff, List.map_cons, List.mem_cons, List.mem_cons, hid, Option.some.injEq]
    tauto

theorem total_cons (v : Value) (vs new more : List Value) :
    total (v :: vs) (new ++ more) = total [v] new + total vs more := by
  simp only [total, List.map_cons, List.sum_cons, List.map_nil, List.sum_nil, List.map_append,
    List.sum_append]
  omega

theorem total_container (h : v.container?.isSome) (new : List Value) :
    total [v] (v :: new) = v.frameCost + total v.contents new := by
  simp only [total, ownCost, List.map_cons, List.sum_cons, List.map_nil, List.sum_nil,
    plainCost_of_container h]
  omega

/-- Values one after another are charged if each of them is. If the total is no larger than the
largest number, no sum stops there. -/
theorem exists_visits (h : ∀ v ∈ vs, ∀ seen, Charged seen v) (seen : List Identity) :
    ∃ new, Visits seen vs (itemsCost seen vs).2 new ∧
      AddsUpTo (itemsCost seen vs).1 (total vs new) ∧
      (total vs new ≤ maxCost → (costs seen vs).sum = total vs new) := by
  induction vs generalizing seen with
  | nil => exact ⟨[], .none seen [], .refl 0, fun _ => rfl⟩
  | cons v vs ih =>
    rw [List.forall_mem_cons] at h
    obtain ⟨new, hnew, hcost⟩ := h.1 seen
    obtain ⟨more, hmore, hcosts, hsum⟩ := ih h.2 (costAfter seen v).2
    refine ⟨new ++ more, hnew.append hmore, ?_, fun hle => ?_⟩
    · rw [total_cons]
      exact hcost.costSum hcosts
    · rw [total_cons] at hle ⊢
      simp only [costs, List.sum_cons, hcost.eq (by omega), hsum (by omega)]

theorem charged (v : Value) : ∀ seen, Charged seen v := by
  induction v using induction_on_contents with
  | h v ih
  intro seen
  unfold Charged
  cases hid : v.container? with
  | none =>
    rw [costAfter_plain hid]
    exact ⟨[], .none seen _, .refl _⟩
  | some id =>
    have hsome : v.container?.isSome := by simp [hid]
    rw [costAfter_container hid]
    split
    · next hseen =>
      refine ⟨[], .none seen _, ?_⟩
      simp [total, plainCost_of_container hsome, AddsUpTo]
    · next hnot =>
      obtain ⟨new, hnew, hcost, -⟩ := exists_visits ih (id :: seen)
      refine ⟨v :: new, hnew.container hid hnot, ?_⟩
      rw [total_container hsome]
      exact (AddsUpTo.refl _).costSum hcost

/-! ## What is seen -/

/-- With a container that was seen, those right inside of it were seen, unless it is one of those
that are still being measured. -/
def SeenInside (all : List Value) (open_ seen : List Identity) : Prop :=
  ∀ w : Value, w.FoundIn all → ∀ id, w.container? = some id → id ∈ seen → id ∉ open_ →
    ∀ inside ∈ w.contents, ∀ i, inside.container? = some i → i ∈ seen

/-- Measuring goes down into what it sees, and comes back with all of it seen. -/
structure Explores (all : List Value) (seen : List Identity) (vs : List Value)
    (seen' : List Identity) : Prop where
  mono : seen ⊆ seen'
  covers : ∀ v ∈ vs, ∀ id, v.container? = some id → id ∈ seen'
  inside : ∀ {open_}, SeenInside all open_ seen → SeenInside all open_ seen'

variable {all : List Value}

theorem explores_items (hvs : ∀ v ∈ vs, ∀ seen, Explores all seen [v] (costAfter seen v).2)
    (seen : List Identity) : Explores all seen vs (itemsCost seen vs).2 := by
  induction vs generalizing seen with
  | nil => exact ⟨fun _ h => h, nofun, fun h => h⟩
  | cons v vs ih =>
    rw [List.forall_mem_cons] at hvs
    have hv := hvs.1 seen
    have hmore := ih hvs.2 (costAfter seen v).2
    refine ⟨fun _ h => hmore.mono (hv.mono h), ?_, fun h => hmore.inside (hv.inside h)⟩
    intro w hw id hid
    rcases List.mem_cons.mp hw with rfl | hw
    · exact hmore.mono (hv.covers w (by simp) id hid)
    · exact hmore.covers w hw id hid

theorem explores (hall : ToldApart all) (v : Value) :
    (v.container?.isSome → v.FoundIn all) → ∀ seen, Explores all seen [v] (costAfter seen v).2 := by
  induction v using induction_on_contents with
  | h v ih
  intro hfound seen
  cases hid : v.container? with
  | none =>
    rw [costAfter_plain hid]
    exact ⟨fun _ h => h, by simp [hid], fun h => h⟩
  | some id =>
    have hv : v.FoundIn all := hfound (by simp [hid])
    rw [costAfter_container hid]
    split
    · next hseen => exact ⟨fun _ h => h, by simpa [hid] using hseen, fun h => h⟩
    · next hnot =>
      have hitems := explores_items (fun inside hmem => ih inside hmem fun h => hv.inside hmem h)
        (id :: seen)
      refine ⟨fun _ h => hitems.mono (List.mem_cons_of_mem _ h), ?_, fun {open_} h => ?_⟩
      · simpa [hid] using hitems.mono List.mem_cons_self
      -- While it is measured, nothing is asked of the container; then all in it has been seen.
      · have hwhile : SeenInside all (id :: open_) (id :: seen) := by
          intro w hw i hi hmem hclosed inside hinside j hj
          rw [List.mem_cons, not_or] at hclosed
          have hold : i ∈ seen := (List.mem_cons.mp hmem).resolve_left hclosed.1
          exact List.mem_cons_of_mem _ (h w hw i hi hold hclosed.2 inside hinside j hj)
        intro w hw i hi hmem hclosed inside hinside j hj
        by_cases heq : i = id
        · obtain rfl : w = v := hall w v hw hv (by rw [hi, hid, heq])
          exact hitems.covers inside hinside j hj
        · exact hitems.inside hwhile w hw i hi hmem (by simp [heq, hclosed]) inside hinside j hj

/-! ## All containers -/

mutual

/-- The arrays and objects in a value as often as they occur, with each the ones in it. -/
def occurrences : Value → List Value
  | array id items => array id items :: itemOccurrences items
  | object id entries => object id entries :: entryOccurrences entries
  | _ => []

def itemOccurrences : List Value → List Value
  | [] => []
  | v :: vs => v.occurrences ++ itemOccurrences vs

def entryOccurrences : List (String × Value) → List Value
  | [] => []
  | (_, v) :: rest => v.occurrences ++ entryOccurrences rest

end

theorem itemOccurrences_eq (vs : List Value) : itemOccurrences vs = vs.flatMap occurrences := by
  induction vs with
  | nil => rfl
  | cons v vs ih => rw [itemOccurrences, ih, List.flatMap_cons]

theorem entryOccurrences_eq (entries : List (String × Value)) :
    entryOccurrences entries = (entries.map Prod.snd).flatMap occurrences := by
  induction entries with
  | nil => rfl
  | cons e rest ih => rw [entryOccurrences, ih, List.map_cons, List.flatMap_cons]

theorem occurrences_of_container (h : v.container?.isSome) :
    v.occurrences = v :: v.contents.flatMap occurrences := by
  cases v with
  | array id items => rw [occurrences, itemOccurrences_eq, contents]
  | object id entries => rw [occurrences, entryOccurrences_eq, contents]
  | _ => cases h

theorem occurrences_of_plain (h : v.container? = none) : v.occurrences = [] := by
  cases v with
  | array | object => cases h
  | _ => rfl

theorem contents_of_plain (h : v.container? = none) : v.contents = [] := by
  cases v with
  | array | object => cases h
  | _ => rfl

/-- What is found in a value is all that occurs in it. -/
theorem mem_occurrences {w : Value} : w ∈ v.occurrences ↔ w.container?.isSome ∧ w.Within v := by
  constructor
  · induction v using induction_on_contents with
    | h v ih
    intro hw
    cases hid : v.container? with
    | none =>
      rw [occurrences_of_plain hid] at hw
      cases hw
    | some id =>
      have hsome : v.container?.isSome := by simp [hid]
      rw [occurrences_of_container hsome] at hw
      rcases List.mem_cons.mp hw with rfl | hw
      · exact ⟨hsome, Relation.ReflTransGen.refl⟩
      · obtain ⟨inside, hmem, hw⟩ := List.mem_flatMap.mp hw
        obtain ⟨hcontainer, hwithin⟩ := ih inside hmem hw
        exact ⟨hcontainer, within_of_mem_contents hmem hwithin⟩
  · rintro ⟨hw, hwithin⟩
    induction hwithin using Relation.ReflTransGen.head_induction_on with
    | refl =>
      rw [occurrences_of_container hw]
      exact List.mem_cons_self
    | @head outer inside hmem _ ih =>
      cases hid : outer.container? with
      | none =>
        rw [contents_of_plain hid] at hmem
        cases hmem
      | some id =>
        rw [occurrences_of_container (by simp [hid])]
        exact List.mem_cons_of_mem _ (List.mem_flatMap.mpr ⟨inside, hmem, ih⟩)

theorem foundIn_iff {w : Value} : w.FoundIn vs ↔ w ∈ vs.flatMap occurrences := by
  simp only [FoundIn, List.mem_flatMap, mem_occurrences]
  tauto

theorem itemsSize_eq (vs : List Value) : itemsSize vs = (vs.map size).sum := by
  induction vs with
  | nil => rfl
  | cons v vs ih => rw [itemsSize, ih, List.map_cons, List.sum_cons]

theorem entriesSize_eq (entries : List (String × Value)) :
    entriesSize entries =
      (entries.map fun e => e.1.length).sum + ((entries.map Prod.snd).map size).sum := by
  induction entries with
  | nil => rfl
  | cons e rest ih =>
    simp only [entriesSize, ih, List.map_cons, List.sum_cons]
    omega

/-- Unfolded into a tree, a value costs what the containers in it cost as often as they occur. -/
theorem size_eq (v : Value) : v.size = total [v] v.occurrences := by
  induction v using induction_on_contents with
  | h v ih
  cases hid : v.container? with
  | none =>
    rw [occurrences_of_plain hid]
    cases v with
    | array | object => cases hid
    | _ => rfl
  | some id =>
    have hsome : v.container?.isSome := by simp [hid]
    have hinside :
        (v.contents.map size).sum = total v.contents (v.contents.flatMap occurrences) := by
      generalize v.contents = inside at ih
      induction inside with
      | nil => rfl
      | cons w ws ihws =>
        rw [List.forall_mem_cons] at ih
        rw [List.map_cons, List.sum_cons, List.flatMap_cons, total_cons, ih.1, ihws ih.2]
    rw [occurrences_of_container hsome, total_container hsome, ← hinside]
    cases v with
    | array id items => rw [size, itemsSize_eq, frameCost, contents]
    | object id entries =>
      rw [size, entriesSize_eq, frameCost, contents]
      omega
    | _ => cases hsome

/-! ## The whole -/

/-- What is seen after the values one after another. -/
def seenAfter (seen : List Identity) : List Value → List Identity
  | [] => seen
  | v :: vs => seenAfter (costAfter seen v).2 vs

theorem seenAfter_eq (seen : List Identity) (vs : List Value) :
    seenAfter seen vs = (itemsCost seen vs).2 := by
  induction vs generalizing seen with
  | nil => rfl
  | cons v vs ih => rw [seenAfter, ih, itemsCost]

/-- All containers that are found in the values are seen after them. -/
theorem seen_of_foundIn (hall : ToldApart vs) {w : Value} (hw : w.FoundIn vs) {id : Identity}
    (hid : w.container? = some id) : id ∈ (itemsCost [] vs).2 := by
  have hexplores : Explores vs [] vs (itemsCost [] vs).2 :=
    explores_items (fun v hv => explores hall v (foundIn_of_mem hv)) []
  have hinside : SeenInside vs [] (itemsCost [] vs).2 := hexplores.inside fun _ _ _ _ h => nomatch h
  obtain ⟨-, v, hv, hwithin⟩ := hw
  induction hwithin generalizing id with
  | refl => exact hexplores.covers v hv id hid
  | @tail outer inside hpath hmem ih =>
    cases hi : outer.container? with
    | none =>
      rw [contents_of_plain hi] at hmem
      cases hmem
    | some i =>
      have hfound : outer.FoundIn vs := ⟨by simp [hi], v, hv, hpath⟩
      exact hinside outer hfound i hi (ih hi) List.not_mem_nil inside hmem id hid

/-- Containers that are told apart are visited once each. -/
theorem exists_visited (hall : ToldApart vs) : ∃ ws : List Value, ws.Nodup ∧
    (∀ w, w ∈ ws ↔ w.FoundIn vs) ∧
    (∀ id, id ∈ seenAfter [] vs ↔ ∃ w ∈ ws, w.container? = some id) ∧
    (total vs ws ≤ maxCost → (costs [] vs).sum = total vs ws) := by
  obtain ⟨ws, hvisits, -, hsum⟩ := exists_visits (fun v (_ : v ∈ vs) => charged v) []
  have hseen : ∀ id, id ∈ (itemsCost [] vs).2 ↔ ∃ w ∈ ws, w.container? = some id := by
    intro id
    simp [hvisits.mem_iff]
  refine ⟨ws, hvisits.nodup.of_map _, fun w => ⟨hvisits.found w, fun hw => ?_⟩, ?_, hsum⟩
  · obtain ⟨id, hid⟩ := Option.isSome_iff_exists.mp hw.1
    obtain ⟨w', hw', hid'⟩ := (hseen id).mp (seen_of_foundIn hall hw hid)
    rwa [hall w w' hw (hvisits.found w' hw') (by rw [hid, hid'])]
  · rw [seenAfter_eq]
    exact hseen

/-- Lists of the same containers, each once, come to the same total. -/
theorem total_perm {vs' ws ws' : List Value} (hvs : vs'.Perm vs) (hws : ws'.Perm ws) :
    total vs' ws' = total vs ws := by
  rw [total, total, (hvs.map plainCost).sum_nat, (hws.map ownCost).sum_nat]

theorem cost_eq_size (hall : ToldApart [v]) (honce : v.occurrences.Nodup)
    (hsize : v.size ≤ maxCost) :
    v.cost = v.size := by
  obtain ⟨ws, hnodup, hmem, -, hsum⟩ := exists_visited hall
  have hperm : ws.Perm v.occurrences := (List.perm_ext_iff_of_nodup hnodup honce).mpr fun w => by
    rw [hmem, foundIn_iff, List.flatMap_singleton]
  have htotal : total [v] ws = v.size := by rw [size_eq, total_perm (.refl _) hperm]
  have hcost := hsum (by rwa [htotal])
  rw [htotal] at hcost
  simpa [costs, cost] using hcost

/-- Whatever values are measured one after another with nothing seen before: the arrays and objects
in them, each listed once, are those that are seen then, and to measure one again costs nothing and
shows nothing new. In whatever order the values come, the same are seen, and the values cost what
these containers cost and what the plain values among them do, as long as this is below the largest
number. A value alone costs no more than unfolded into a tree, and just as much if no container
occurs in it twice. -/
theorem shared_containers_cost_once (hapart : ToldApart vs) :
    ∃ ws : List Value, ws.Nodup ∧ (∀ w, w ∈ ws ↔ w.container?.isSome ∧ ∃ v ∈ vs, w.Within v) ∧
      (∀ id, id ∈ seenAfter [] vs ↔ ∃ w ∈ ws, w.container? = some id) ∧
      (∀ w ∈ ws, costAfter (seenAfter [] vs) w = (0, seenAfter [] vs)) ∧
      (∀ vs' : List Value, vs'.Perm vs →
        (∀ id, id ∈ seenAfter [] vs' ↔ id ∈ seenAfter [] vs) ∧
        ((ws.map ownCost).sum + (vs.map plainCost).sum < 2 ^ 64 →
          (costs [] vs').sum = (ws.map ownCost).sum + (vs.map plainCost).sum)) ∧
      ∀ v ∈ vs, v.cost ≤ v.size ∧ (v.occurrences.Nodup → v.size < 2 ^ 64 → v.cost = v.size) := by
  obtain ⟨ws, hnodup, hmem, hseen, -⟩ := exists_visited hapart
  refine ⟨ws, hnodup, hmem, hseen, fun w hw => ?_, fun vs' hperm => ?_, fun v hv => ⟨?_, ?_⟩⟩
  · obtain ⟨id, hid⟩ := Option.isSome_iff_exists.mp ((hmem w).mp hw).1
    rw [costAfter_container hid, if_pos ((hseen id).mpr ⟨w, hw, hid⟩)]
  · obtain ⟨ws', hnodup', hmem', hseen', hsum⟩ := exists_visited (hapart.mono hperm.subset)
    have hfound : ∀ w, w ∈ ws' ↔ w ∈ ws := by
      intro w
      rw [hmem, hmem']
      exact ⟨fun h => h.mono hperm.subset, fun h => h.mono hperm.symm.subset⟩
    have htotal : total vs' ws' = (ws.map ownCost).sum + (vs.map plainCost).sum := by
      rw [total_perm hperm ((List.perm_ext_iff_of_nodup hnodup' hnodup).mpr hfound),
        total, Nat.add_comm]
    refine ⟨fun id => ?_, fun hbound => ?_⟩
    · simp only [hseen, hseen', hfound]
    · rw [hsum (htotal ▸ Nat.le_sub_one_of_lt hbound), htotal]
  · exact costAfter_le [] v
  · intro honce hsize
    exact cost_eq_size (hapart.mono (by simpa using hv)) honce (Nat.le_sub_one_of_lt hsize)

/-- An array that is shared. -/
def sharedItems : Value := array ⟨"a", 0⟩ [string "xyz", null]

/-- An object with the array in it twice. -/
def sharingEntries : Value := object ⟨"a", 1⟩ [("k", sharedItems), ("long", sharedItems)]

theorem toldApart_sharing : ToldApart [sharedItems, sharingEntries, string "s"] := by
  have hoccurrences : [sharedItems, sharingEntries, string "s"].flatMap occurrences =
      [sharedItems, sharingEntries, sharedItems, sharedItems] := rfl
  have hne : sharedItems.container? ≠ sharingEntries.container? := by decide
  intro v w hv hw hid
  rw [foundIn_iff, hoccurrences] at hv hw
  have hv : v = sharedItems ∨ v = sharingEntries := by simpa [or_comm] using hv
  have hw : w = sharedItems ∨ w = sharingEntries := by simpa [or_comm] using hw
  rcases hv with rfl | rfl
  · rcases hw with rfl | rfl
    · rfl
    · exact absurd hid hne
  · rcases hw with rfl | rfl
    · exact absurd hid.symm hne
    · rfl

/-- In another order the array is charged inside of the object, and all comes to the same. -/
theorem shared_containers_cost_once_in_pair :
    ToldApart [sharedItems, sharingEntries, string "s"] ∧
      costs [] [sharedItems, sharingEntries, string "s"] = [6, 7, 1] ∧
      ∃ ws : List Value, ws.Nodup ∧ (ws.map ownCost).sum + 1 = 14 ∧
        (costs [] [string "s", sharingEntries, sharedItems]).sum = (ws.map ownCost).sum + 1 ∧
        costAfter (seenAfter [] [sharedItems, sharingEntries, string "s"]) sharedItems =
          (0, seenAfter [] [sharedItems, sharingEntries, string "s"]) := by
  have hcosts : costs [] [sharedItems, sharingEntries, string "s"] = [6, 7, 1] := by decide +kernel
  obtain ⟨ws, hnodup, hmem, -, hagain, hperm, -⟩ := shared_containers_cost_once toldApart_sharing
  have hfound : ∀ w, w ∈ ws ↔ w ∈ [sharedItems, sharingEntries] := by
    intro w
    have hw : w ∈ ws ↔ w.FoundIn [sharedItems, sharingEntries, string "s"] := hmem w
    rw [hw, foundIn_iff]
    simp [sharedItems, sharingEntries, occurrences, itemOccurrences, entryOccurrences]
    tauto
  have hpair : [sharedItems, sharingEntries].Nodup := by
    simp [sharedItems, sharingEntries]
  have hsum : (ws.map ownCost).sum = 13 := by
    rw [(((List.perm_ext_iff_of_nodup hnodup hpair).mpr hfound).map ownCost).sum_nat]
    rfl
  refine ⟨toldApart_sharing, hcosts, ws, hnodup, by rw [hsum], ?_, ?_⟩
  · exact (hperm _ (List.reverse_perm [sharedItems, sharingEntries, string "s"])).2 (by
      rw [hsum]
      decide)
  · exact hagain sharedItems ((hfound _).mpr List.mem_cons_self)

end LazyConfig.Value
