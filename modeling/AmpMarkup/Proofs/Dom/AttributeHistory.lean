import Mathlib.Data.Finmap
import AmpMarkup.Attribute
import AmpMarkup.Proofs.Lookup

/-! A list of attributes after any run of changes. What it answers is what a finite map answers
under the same run; the place of a name, and whether it stands without a value, are read off the
run. -/

namespace AmpMarkup

namespace Attributes

/-- The list after changes made in turn. -/
def applyAll (a : Attributes) (history : List Change) : Attributes :=
  history.foldl apply a

/-- The changes that collect pairs. -/
def collecting (pairs : List (Text × Text)) : List Change :=
  pairs.map fun p => .set p.1 p.2

theorem setAll_eq_applyAll (a : Attributes) (pairs : List (Text × Text)) :
    a.setAll pairs = a.applyAll (collecting pairs) := by
  simp only [setAll, applyAll, collecting, List.foldl_map, apply]

theorem applyAll_append (a : Attributes) (history later : List Change) :
    a.applyAll (history ++ later) = (a.applyAll history).applyAll later :=
  List.foldl_append

/-- The name a change is about. -/
def Change.name : Change → Text
  | .set name _ | .setIfAbsent name _ | .setBareIfAbsent name | .remove name => name

/-- A change that puts the name into a list without it. -/
structure Change.Inserts (name : Text) (c : Change) : Prop where
  about : c.name = name
  ne_remove : c ≠ .remove name

/-! ### The finite map -/

/-- Puts a value into a finite map unless the map has one for the name. -/
def insertIfAbsent (m : Finmap fun _ : Text => Text) (name value : Text) :
    Finmap fun _ : Text => Text :=
  if name ∈ m then m else m.insert name value

/-- The finite map after a change. A name that stands alone has the empty value. -/
def Change.onMap (m : Finmap fun _ : Text => Text) : Change → Finmap fun _ : Text => Text
  | .set name value => m.insert name value
  | .setIfAbsent name value => insertIfAbsent m name value
  | .setBareIfAbsent name => insertIfAbsent m name []
  | .remove name => m.erase name

/-- What the finite map answers to a change. -/
def Change.mapAnswer (m : Finmap fun _ : Text => Text) : Change → Answer
  | .set name _ | .remove name => .previous (m.lookup name)
  | .setIfAbsent name _ | .setBareIfAbsent name => .added (decide (name ∉ m))

/-- The finite map after changes made in turn to the empty map. -/
def mapOf (history : List Change) : Finmap fun _ : Text => Text :=
  history.foldl Change.onMap ∅

/-! ### What a run says of a name -/

/-- The change at this time of the run brought the name in: no later change takes it out, and each
earlier change that could have brought it in has been undone before. -/
structure CreatedAt (history : List Change) (name : Text) (time : Nat) : Prop where
  inserts : ∃ c, history[time]? = some c ∧ c.Inserts name
  kept : ∀ j, time < j → history[j]? ≠ some (.remove name)
  first : ∀ j c, j < time → history[j]? = some c → c.Inserts name →
    ∃ k, j < k ∧ k < time ∧ history[k]? = some (.remove name)

/-- The first name was brought in before the second one. -/
def Precedes (history : List Change) (name name' : Text) : Prop :=
  ∀ i j, CreatedAt history name i → CreatedAt history name' j → i < j

/-- The name was brought in without a value and has not been set since. -/
def LeftBare (history : List Change) (name : Text) : Prop :=
  ∃ i, CreatedAt history name i ∧ history[i]? = some (.setBareIfAbsent name) ∧
    ∀ j value, i < j → history[j]? ≠ some (.set name value)

/-- The list is what the run says: it reads as the finite map and answers the next change as that
does, its names stand in the order of their times, and those left bare have no value. -/
structure Records (a : Attributes) (history : List Change) : Prop where
  nodup : a.names.Nodup
  get? : ∀ name, a.get? name = (mapOf history).lookup name
  answer : ∀ c, a.answer c = c.mapAnswer (mapOf history)
  present : ∀ name, name ∈ a.names ↔ ∃ i, CreatedAt history name i
  order : a.names.Pairwise (Precedes history)
  bare : ∀ e ∈ a.entries, e.value = none ↔ LeftBare history e.name

/-! ### One change to the list -/

/-- What a change leaves of the entry of its name. -/
def Change.entry? (old : Option Attribute) : Change → Option Attribute
  | .set name value => some ⟨name, some value⟩
  | .setIfAbsent name value => old.or (some ⟨name, some value⟩)
  | .setBareIfAbsent name => old.or (some ⟨name, none⟩)
  | .remove _ => none

section
variable {a : Attributes} {name : Text} {e : Attribute} {c : Change}

/-! The order of the names. -/

/-- A change takes its name out, appends it, or leaves the names alone. -/
theorem names_apply (a : Attributes) (c : Change) :
    (a.apply c).names =
      if c = .remove c.name then a.names.erase c.name
      else if c.name ∈ a.names then a.names else a.names ++ [c.name] := by
  cases c with
  | set name value =>
      rw [if_neg (by simp)]
      exact names_set a name value
  | setIfAbsent name value =>
      rw [if_neg (by simp)]
      exact names_addIfAbsent a ⟨name, some value⟩
  | setBareIfAbsent name =>
      rw [if_neg (by simp)]
      exact names_addIfAbsent a ⟨name, none⟩
  | remove name =>
      rw [if_pos (by rfl)]
      exact names_remove a name

theorem nodup_apply (h : a.names.Nodup) (c : Change) : (a.apply c).names.Nodup := by
  rw [names_apply]
  split
  · exact h.erase c.name
  · split
    · exact h
    · next hc => exact List.nodup_append_comm.mp (by simpa [hc] using h)

theorem mem_names_apply (h : a.names.Nodup) (c : Change) :
    name ∈ (a.apply c).names ↔ c ≠ .remove name ∧ (name ∈ a.names ∨ c.name = name) := by
  rw [names_apply]
  by_cases hc : c = .remove c.name
  · rw [if_pos hc, h.mem_erase_iff]
    constructor
    · rintro ⟨hne, hmem⟩
      refine ⟨?_, .inl hmem⟩
      intro hr
      exact hne (by rw [hr, Change.name])
    · rintro ⟨hr, hmem⟩
      have hne : name ≠ c.name := fun hn => hr (hn ▸ hc)
      exact ⟨hne, hmem.resolve_right hne.symm⟩
  · have hr : c ≠ .remove name := fun hr => hc (by rw [hr, Change.name])
    rw [if_neg hc]
    split
    · next hmem =>
        constructor
        · intro hn
          exact ⟨hr, .inl hn⟩
        · rintro ⟨-, hn | rfl⟩
          · exact hn
          · exact hmem
    · simp [hr, eq_comm]

/-! The entries. -/

theorem find?_eq_none_iff : a.find? name = none ↔ name ∉ a.names := by
  simp [find?, names]

theorem name_of_find? (h : a.find? name = some e) : e.name = name := by
  simpa using List.find?_some h

theorem find?_of_mem (h : a.names.Nodup) (he : e ∈ a.entries) : a.find? e.name = some e :=
  (find?_key_eq_some_iff h).mpr ⟨he, rfl⟩

theorem find?_addIfAbsent (a : Attributes) (e : Attribute) (name : Text) :
    (a.addIfAbsent e).find? name =
      if e.name = name then (a.find? name).or (some e) else a.find? name := by
  by_cases h : e.name ∈ a.names
  · rw [addIfAbsent_of_mem h]
    split
    · next hname =>
        cases hfind : a.find? name with
        | none => exact absurd (hname ▸ h) (find?_eq_none_iff.1 hfind)
        | some b => rfl
    · rfl
  · rw [addIfAbsent_of_not_mem h]
    by_cases hname : e.name = name <;> simp [find?, hname]

theorem find?_overwrite {entries : List Attribute} (h : name ∈ entries.map Attribute.name)
    (value other : Text) :
    (overwrite name value entries).find? (·.name == other) =
      if name = other then some ⟨name, some value⟩ else entries.find? (·.name == other) := by
  induction entries with
  | nil => simp at h
  | cons b rest ih =>
      by_cases hb : b.name = name
      · by_cases ho : name = other <;> simp [overwrite, hb, ho]
      · have hrest : name ∈ rest.map Attribute.name := by
          simpa [Ne.symm hb] using h
        by_cases ho : b.name = other
        · have hne : name ≠ other := fun hn => hb (ho.trans hn.symm)
          simp [overwrite, ho, hne, hne.symm]
        · simpa [overwrite, hb, ho] using ih hrest

theorem find?_set (a : Attributes) (name value other : Text) :
    (a.set name value).find? other =
      if name = other then some ⟨name, some value⟩ else a.find? other := by
  by_cases h : name ∈ a.names
  · rw [set_of_mem h]
    exact find?_overwrite h value other
  · rw [set_of_not_mem h]
    by_cases ho : name = other
    · have hnone := find?_eq_none_iff.2 h
      rw [find?, ho] at hnone
      simp [find?, ho, hnone]
    · simp [find?, ho]

theorem find?_remove (h : a.names.Nodup) (name other : Text) :
    (a.remove name).find? other = if name = other then none else a.find? other := by
  by_cases ho : name = other
  · have hout : other ∉ (a.remove name).names := by
      rw [names_remove, ho]
      exact h.not_mem_erase
    rw [if_pos ho]
    exact find?_eq_none_iff.2 hout
  · simp only [remove, find?, ho, if_false]
    induction a.entries with
    | nil => rfl
    | cons b rest ih =>
        by_cases hb : b.name = name
        · simp [hb, ho]
        · rw [List.eraseP_cons_of_neg (by simpa using hb)]
          by_cases hbo : b.name = other <;> simp [hbo, ih]

/-- A change makes of the entry of its own name what it says, and leaves the other entries. -/
theorem find?_apply (h : a.names.Nodup) (c : Change) (name : Text) :
    (a.apply c).find? name =
      if c.name = name then c.entry? (a.find? name) else a.find? name := by
  cases c with
  | set name' value => exact find?_set a name' value name
  | setIfAbsent name' value => exact find?_addIfAbsent a ⟨name', some value⟩ name
  | setBareIfAbsent name' => exact find?_addIfAbsent a ⟨name', none⟩ name
  | remove name' => exact find?_remove h name' name

end

/-! ### One more change of a run -/

section
variable {history : List Change} {c d : Change} {name : Text} {i j : Nat}

theorem mapOf_snoc (history : List Change) (c : Change) :
    mapOf (history ++ [c]) = c.onMap (mapOf history) := by
  simp [mapOf]

theorem lookup_insertIfAbsent (m : Finmap fun _ : Text => Text) (name value : Text) :
    (insertIfAbsent m name value).lookup name = (m.lookup name).or (some value) := by
  by_cases h : name ∈ m
  · obtain ⟨old, hold⟩ := Finmap.mem_iff.mp h
    simp [insertIfAbsent, h, hold]
  · simp [insertIfAbsent, h, Finmap.lookup_eq_none.mpr h]

theorem lookup_insertIfAbsent_of_ne (m : Finmap fun _ : Text => Text) {name other : Text}
    (h : other ≠ name) (value : Text) :
    (insertIfAbsent m name value).lookup other = m.lookup other := by
  by_cases hm : name ∈ m
  · simp [insertIfAbsent, hm]
  · simp [insertIfAbsent, hm, Finmap.lookup_insert_of_ne m h]

/-- A change makes of the value of its own name what it makes of the entry. -/
theorem lookup_onMap {m : Finmap fun _ : Text => Text} {old : Option Attribute}
    (h : m.lookup c.name = old.map Attribute.text) :
    (c.onMap m).lookup c.name = (c.entry? old).map Attribute.text := by
  cases c with
  | set name value => exact Finmap.lookup_insert m
  | setIfAbsent name value =>
      rw [Change.name] at h ⊢
      rw [Change.onMap, lookup_insertIfAbsent, h]
      cases old <;> rfl
  | setBareIfAbsent name =>
      rw [Change.name] at h ⊢
      rw [Change.onMap, lookup_insertIfAbsent, h]
      cases old <;> rfl
  | remove name => exact Finmap.lookup_erase name m

theorem lookup_onMap_of_ne (m : Finmap fun _ : Text => Text) (h : c.name ≠ name) :
    (c.onMap m).lookup name = m.lookup name := by
  cases c with
  | set name' value => exact Finmap.lookup_insert_of_ne m h.symm
  | setIfAbsent name' value => exact lookup_insertIfAbsent_of_ne m h.symm value
  | setBareIfAbsent name' => exact lookup_insertIfAbsent_of_ne m h.symm []
  | remove name' => exact Finmap.lookup_erase_ne h.symm

/-- The change that brought a name in last is one. -/
theorem CreatedAt.unique (hi : CreatedAt history name i) (hj : CreatedAt history name j) :
    i = j := by
  -- Of two times the later one asks for a removal in between, which the earlier one excludes.
  have hle : ∀ {i j}, CreatedAt history name i → CreatedAt history name j → ¬ i < j := by
    intro i j hi hj hij
    obtain ⟨c, hc, hins⟩ := hi.inserts
    obtain ⟨k, hik, -, hk⟩ := hj.first i c hij hc hins
    exact hi.kept k hik hk
  have := hle hi hj
  have := hle hj hi
  omega

theorem CreatedAt.lt_length (h : CreatedAt history name i) : i < history.length := by
  obtain ⟨c, hc, -⟩ := h.inserts
  exact (List.getElem?_eq_some_iff.mp hc).1

/-- A name that some change brings in and none takes out later was brought in for the last time by
then. -/
theorem exists_createdAt (hi : history[i]? = some c) (hc : c.Inserts name)
    (hkept : ∀ j, i < j → history[j]? ≠ some (.remove name)) :
    ∃ j, CreatedAt history name j := by
  induction i using Nat.strong_induction_on generalizing c with
  | _ i ih =>
      by_cases hfirst : ∀ j d, j < i → history[j]? = some d → d.Inserts name →
          ∃ k, j < k ∧ k < i ∧ history[k]? = some (.remove name)
      · exact ⟨i, ⟨c, hi, hc⟩, hkept, hfirst⟩
      · push Not at hfirst
        obtain ⟨j, d, hji, hj, hd, hnone⟩ := hfirst
        apply ih j hji hj hd
        intro k hjk hk
        rcases Nat.lt_trichotomy k i with hki | rfl | hik
        · exact hnone k hjk hki hk
        · rw [hi, Option.some.injEq] at hk
          exact hc.ne_remove hk
        · exact hkept k hik hk

theorem getElem?_snoc_eq_some_iff :
    (history ++ [d])[i]? = some c ↔ history[i]? = some c ∨ (i = history.length ∧ d = c) := by
  rcases Nat.lt_trichotomy i history.length with hlt | rfl | hgt
  · have hne : i ≠ history.length := by omega
    simp [List.getElem?_append_left hlt, hne]
  · simp
  · have hne : i ≠ history.length := by omega
    have hle : history.length ≤ i := by omega
    have hsub : i - history.length ≠ 0 := by omega
    simp [List.getElem?_append_right hle, List.getElem?_eq_none hle, hne, hsub]

theorem getElem?_snoc (h : history[i]? = some c) : (history ++ [d])[i]? = some c :=
  getElem?_snoc_eq_some_iff.2 (.inl h)

theorem le_length_of_getElem?_snoc (h : (history ++ [d])[i]? = some c) : i ≤ history.length := by
  have hlt := (List.getElem?_eq_some_iff.mp h).1
  simp at hlt
  omega

/-- A time before the last change was the time already. -/
theorem CreatedAt.of_snoc (h : CreatedAt (history ++ [d]) name i) (hlt : i < history.length) :
    d ≠ .remove name ∧ CreatedAt history name i := by
  obtain ⟨c, hc, hins⟩ := h.inserts
  rw [List.getElem?_append_left hlt] at hc
  refine ⟨?_, ⟨c, hc, hins⟩, ?_, ?_⟩
  · intro hd
    exact h.kept _ hlt (getElem?_snoc_eq_some_iff.2 (.inr ⟨rfl, hd⟩))
  · intro j hij hj
    exact h.kept j hij (getElem?_snoc hj)
  · intro j c hji hj hins
    obtain ⟨k, hjk, hki, hk⟩ := h.first j c hji (getElem?_snoc hj) hins
    rw [List.getElem?_append_left (hki.trans hlt)] at hk
    exact ⟨k, hjk, hki, hk⟩

/-- A change that does not take a name out leaves its time. -/
theorem CreatedAt.snoc (h : CreatedAt history name i) (hd : d ≠ .remove name) :
    CreatedAt (history ++ [d]) name i := by
  obtain ⟨c, hc, hins⟩ := h.inserts
  refine ⟨⟨c, getElem?_snoc hc, hins⟩, ?_, ?_⟩
  · intro j hij hj
    rcases getElem?_snoc_eq_some_iff.1 hj with hj | ⟨-, hj⟩
    · exact h.kept j hij hj
    · exact hd hj
  · intro j c hji hj hins
    rw [List.getElem?_append_left (hji.trans h.lt_length)] at hj
    obtain ⟨k, hjk, hki, hk⟩ := h.first j c hji hj hins
    exact ⟨k, hjk, hki, getElem?_snoc hk⟩

/-- A name that the last change brings in had no time before: that time would ask for a removal
behind it. -/
theorem not_createdAt_of_snoc (h : CreatedAt (history ++ [d]) name history.length) (j : Nat) :
    ¬ CreatedAt history name j := by
  intro hj
  obtain ⟨c, hc, hins⟩ := hj.inserts
  obtain ⟨k, hjk, hk, hkr⟩ := h.first j c hj.lt_length (getElem?_snoc hc) hins
  rw [List.getElem?_append_left hk] at hkr
  exact hj.kept k hjk hkr

/-- A change that can bring in a name without a time is the time of the name. -/
theorem createdAt_length (hd : d.Inserts name) (hnone : ∀ j, ¬ CreatedAt history name j) :
    CreatedAt (history ++ [d]) name history.length := by
  refine ⟨⟨d, by simp, hd⟩, ?_, ?_⟩
  · intro j hij hj
    have hle := le_length_of_getElem?_snoc hj
    omega
  · intro j c hji hj hc
    rw [List.getElem?_append_left hji] at hj
    by_contra hno
    have hkept : ∀ k, j < k → history[k]? ≠ some (.remove name) := by
      intro k hjk hk
      have hlt : k < history.length := (List.getElem?_eq_some_iff.mp hk).1
      exact hno ⟨k, hjk, hlt, getElem?_snoc hk⟩
    obtain ⟨k, hk⟩ := exists_createdAt hj hc hkept
    exact hnone k hk

/-- One more change keeps the time of a name unless it takes the name out, and is the time of a name
that it brings in. -/
theorem createdAt_snoc_iff :
    CreatedAt (history ++ [d]) name i ↔
      (d ≠ .remove name ∧ CreatedAt history name i) ∨
      (d.Inserts name ∧ i = history.length ∧ ∀ j, ¬ CreatedAt history name j) := by
  constructor
  · intro h
    obtain ⟨c, hc, hins⟩ := h.inserts
    rcases getElem?_snoc_eq_some_iff.1 hc with hc | ⟨rfl, rfl⟩
    · exact .inl (h.of_snoc (List.getElem?_eq_some_iff.mp hc).1)
    · exact .inr ⟨hins, rfl, not_createdAt_of_snoc h⟩
  · rintro (⟨hd, h⟩ | ⟨hins, rfl, hnone⟩)
    · exact h.snoc hd
    · exact createdAt_length hins hnone

/-- One more change gives no new time to a name that has one. -/
theorem CreatedAt.of_snoc_of_created (hj : CreatedAt (history ++ [d]) name j)
    (h : CreatedAt history name i) : CreatedAt history name j := by
  rcases createdAt_snoc_iff.1 hj with ⟨-, hj⟩ | ⟨-, -, hnone⟩
  · exact hj
  · exact absurd h (hnone i)

theorem exists_createdAt_snoc_iff :
    (∃ i, CreatedAt (history ++ [d]) name i) ↔
      d ≠ .remove name ∧ ((∃ i, CreatedAt history name i) ∨ d.name = name) := by
  constructor
  · rintro ⟨i, hi⟩
    rcases createdAt_snoc_iff.1 hi with ⟨hd, h⟩ | ⟨hins, -, -⟩
    · exact ⟨hd, .inl ⟨i, h⟩⟩
    · exact ⟨hins.ne_remove, .inr hins.about⟩
  · rintro ⟨hd, h⟩
    by_cases hex : ∃ i, CreatedAt history name i
    · obtain ⟨i, hi⟩ := hex
      exact ⟨i, hi.snoc hd⟩
    · have hname : d.name = name := h.resolve_left hex
      exact ⟨_, createdAt_length ⟨hname, hd⟩ (not_exists.mp hex)⟩

/-- One more change leaves a name bare unless it sets the name or takes it out, and makes it bare
where it brings it in bare. -/
theorem leftBare_snoc_iff :
    LeftBare (history ++ [d]) name ↔
      (LeftBare history name ∧ d ≠ .remove name ∧ ∀ value, d ≠ .set name value) ∨
      (d = .setBareIfAbsent name ∧ ∀ i, ¬ CreatedAt history name i) := by
  constructor
  · rintro ⟨i, hi, hbare, hset⟩
    rcases createdAt_snoc_iff.1 hi with ⟨hd, h⟩ | ⟨-, rfl, hnone⟩
    · left
      rw [List.getElem?_append_left h.lt_length] at hbare
      refine ⟨⟨i, h, hbare, ?_⟩, hd, ?_⟩
      · intro j value hij hj
        exact hset j value hij (getElem?_snoc hj)
      · intro value hvalue
        exact hset _ value h.lt_length (getElem?_snoc_eq_some_iff.2 (.inr ⟨rfl, hvalue⟩))
    · right
      exact ⟨by simpa using hbare, hnone⟩
  · rintro (⟨⟨i, h, hbare, hset⟩, hd, hvalue⟩ | ⟨rfl, hnone⟩)
    · refine ⟨i, h.snoc hd, getElem?_snoc hbare, ?_⟩
      intro j value hij hj
      rcases getElem?_snoc_eq_some_iff.1 hj with hj | ⟨-, hj⟩
      · exact hset j value hij hj
      · exact hvalue value hj
    · have hins : (Change.setBareIfAbsent name).Inserts name := ⟨rfl, by simp⟩
      refine ⟨history.length, createdAt_length hins hnone, by simp, ?_⟩
      intro j value hij hj
      have hle := le_length_of_getElem?_snoc hj
      omega

end

/-! ### The run -/

section
variable {a : Attributes} {history : List Change} {c : Change}

theorem records_empty : empty.Records [] where
  nodup := List.nodup_nil
  get? _ := rfl
  answer c := by cases c <;> rfl
  present := by
    intro name
    simp only [names, empty, List.map_nil, List.not_mem_nil, false_iff]
    rintro ⟨i, hi⟩
    simpa using hi.lt_length
  order := List.Pairwise.nil
  bare := by simp [empty]

theorem answer_eq {m : Finmap fun _ : Text => Text} (h : ∀ name, a.get? name = m.lookup name)
    (c : Change) : a.answer c = c.mapAnswer m := by
  have hmem : ∀ name, a.contains name = true ↔ name ∈ m := by
    intro name
    rw [← not_iff_not, ← Finmap.lookup_eq_none, ← h, get?, Option.map_eq_none_iff,
      find?_eq_none_iff, contains_iff_mem_names]
  cases c with
  | set name value => exact congrArg Answer.previous (h name)
  | setIfAbsent name value => simp [answer, Change.mapAnswer, ← hmem]
  | setBareIfAbsent name => simp [answer, Change.mapAnswer, ← hmem]
  | remove name => exact congrArg Answer.previous (h name)

theorem Records.get?_apply (h : a.Records history) (c : Change) (name : Text) :
    (a.apply c).get? name = (mapOf (history ++ [c])).lookup name := by
  rw [mapOf_snoc, Attributes.get?, find?_apply h.nodup]
  by_cases hc : c.name = name
  · subst hc
    rw [if_pos rfl]
    exact (lookup_onMap (h.get? c.name).symm).symm
  · rw [if_neg hc, lookup_onMap_of_ne _ hc]
    exact h.get? name

theorem Records.order_of_sublist (h : a.Records history) (c : Change) {names : List Text}
    (hsub : names.Sublist a.names) :
    names.Pairwise (Precedes (history ++ [c])) := by
  apply (h.order.sublist hsub).imp_of_mem
  intro name name' hmem hmem' hlt i j hi hj
  obtain ⟨k, hk⟩ := (h.present name).mp (hsub.subset hmem)
  obtain ⟨k', hk'⟩ := (h.present name').mp (hsub.subset hmem')
  exact hlt i j (hi.of_snoc_of_created hk) (hj.of_snoc_of_created hk')

theorem Records.order_apply (h : a.Records history) (c : Change) :
    (a.apply c).names.Pairwise (Precedes (history ++ [c])) := by
  rw [names_apply]
  split
  · exact h.order_of_sublist c List.erase_sublist
  · split
    · exact h.order_of_sublist c (List.Sublist.refl _)
    · next hc =>
        rw [List.pairwise_append]
        refine ⟨h.order_of_sublist c (List.Sublist.refl _), by simp, ?_⟩
        intro name hname name' hname' i j hi hj
        rw [List.mem_singleton.mp hname'] at hj
        obtain ⟨k, hk⟩ := (h.present name).mp hname
        have hlt := (hi.of_snoc_of_created hk).lt_length
        rcases createdAt_snoc_iff.1 hj with ⟨-, hj⟩ | ⟨-, rfl, -⟩
        · exact absurd ((h.present c.name).mpr ⟨j, hj⟩) hc
        · exact hlt

theorem Records.not_created (h : a.Records history) {name : Text} (hfind : a.find? name = none) :
    ∀ i, ¬ CreatedAt history name i := by
  intro i hi
  exact find?_eq_none_iff.1 hfind ((h.present name).mpr ⟨i, hi⟩)

theorem Records.bare_find? (h : a.Records history) {name : Text} {e : Attribute}
    (hfind : a.find? name = some e) :
    (e.value = none ↔ LeftBare history name) ∧ ∃ i, CreatedAt history name i := by
  have hname := name_of_find? hfind
  have hmem : e ∈ a.entries := List.mem_of_find?_eq_some hfind
  constructor
  · rw [← hname]
    exact h.bare e hmem
  · rw [← h.present, ← hname]
    exact List.mem_map_of_mem hmem

theorem Records.bare_entry? (h : a.Records history) {c : Change} {e : Attribute}
    (he : c.entry? (a.find? c.name) = some e) :
    e.value = none ↔ LeftBare (history ++ [c]) c.name := by
  rw [leftBare_snoc_iff]
  cases c with
  | set name value =>
      obtain rfl : ⟨name, some value⟩ = e := by simpa [Change.entry?] using he
      simp [Change.name]
  | setIfAbsent name value =>
      simp only [Change.name] at he ⊢
      cases hold : a.find? name with
      | none =>
          -- A name that is not there was not left bare.
          obtain rfl : ⟨name, some value⟩ = e := by simpa [hold, Change.entry?] using he
          have hbare : ¬ LeftBare history name := fun ⟨i, hi, _⟩ => h.not_created hold i hi
          simp [hbare]
      | some b =>
          obtain rfl : b = e := by simpa [hold, Change.entry?] using he
          simpa using (h.bare_find? hold).1
  | setBareIfAbsent name =>
      simp only [Change.name] at he ⊢
      cases hold : a.find? name with
      | none =>
          obtain rfl : ⟨name, none⟩ = e := by simpa [hold, Change.entry?] using he
          simpa using Or.inr (h.not_created hold)
      | some b =>
          obtain rfl : b = e := by simpa [hold, Change.entry?] using he
          obtain ⟨hbare, i, hi⟩ := h.bare_find? hold
          have hsome : ¬ ∀ i, ¬ CreatedAt history name i := fun hnone => hnone i hi
          simpa [or_iff_left hsome] using hbare
  | remove name => simp [Change.entry?] at he

theorem Records.bare_apply (h : a.Records history) (c : Change) {e : Attribute}
    (he : e ∈ (a.apply c).entries) :
    e.value = none ↔ LeftBare (history ++ [c]) e.name := by
  have hfind := find?_of_mem (nodup_apply h.nodup c) he
  rw [find?_apply h.nodup] at hfind
  split at hfind
  · next hc =>
      rw [← hc] at hfind ⊢
      exact h.bare_entry? hfind
  · next hc =>
      have hne : ∀ d : Change, d.name = e.name → c ≠ d := fun d hd hcd => hc (hcd ▸ hd)
      rw [leftBare_snoc_iff]
      simpa [hne (.remove e.name) rfl, fun value => hne (.set e.name value) rfl,
        hne (.setBareIfAbsent e.name) rfl] using (h.bare_find? hfind).1

/-- One more change to the list is one more change to the run. -/
theorem Records.apply (h : a.Records history) (c : Change) :
    (a.apply c).Records (history ++ [c]) where
  nodup := nodup_apply h.nodup c
  get? := h.get?_apply c
  answer := answer_eq (h.get?_apply c)
  present := by
    intro name
    rw [mem_names_apply h.nodup, exists_createdAt_snoc_iff, h.present]
  order := h.order_apply c
  bare _ := h.bare_apply c

theorem Records.applyAll (h : a.Records history) (later : List Change) :
    (a.applyAll later).Records (history ++ later) := by
  induction later generalizing a history with
  | nil => simpa [Attributes.applyAll] using h
  | cons c later ih => simpa [Attributes.applyAll] using ih (h.apply c)

/-- The list of attributes is a map in the order of insertion: whatever pairs it is collected from
and whatever is changed afterwards, it is what the run of changes says. -/
theorem records_collected (pairs : List (Text × Text)) (changes : List Change) :
    ((empty.setAll pairs).applyAll changes).Records (collecting pairs ++ changes) := by
  rw [setAll_eq_applyAll, ← applyAll_append]
  simpa using records_empty.applyAll (collecting pairs ++ changes)

/-- A name that is taken out and comes back stands at the end. -/
example :
    let a := (empty.setAll [("b", "1"), ("a", "2"), ("b", "3")]).applyAll
      [.remove "b", .setBareIfAbsent "b"]
    a.names = ["a", "b"] ∧ a.get? "b" = some "" ∧ a.answer (.remove "a") = .previous "2" := by
  decide

end

end Attributes

end AmpMarkup
