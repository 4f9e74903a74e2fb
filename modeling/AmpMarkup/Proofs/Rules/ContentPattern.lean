import AmpMarkup.Proofs.Pattern.Anchoring
import AmpMarkup.Proofs.Rules.Faults

/-! Patterns for the whole content of an element. Rules have them as text, and loading reads this text between
the ends of a text. Of what has been loaded, the patterns that are valid by themselves match a content if and
only if they match all of it. Those that are not valid close a group that they do not open. On the other hand,
rules with valid patterns can be loaded unless one of them ends in a comment or uses up what limits patterns. -/

namespace AmpMarkup.Rules

open Pattern (parse? isMatch ClosesOutside EndsInComment HasRoom)

/-- The specification without its pattern for the whole content. -/
def TagSpec.withoutContentPattern (s : TagSpec) : TagSpec :=
  { s with content := s.content.map ({ · with pattern := none }) }

/-- The rules without patterns for the whole content. -/
def RuleSet.withoutContentPatterns (rules : RuleSet) : RuleSet :=
  { rules with tags := rules.tags.map TagSpec.withoutContentPattern }

variable {rules : RuleSet} {r : Repository} {s : TagSpec} {c : CompiledSpec} {t : Text}

/-! ### One pattern -/

theorem anchored_eq (t : Text) : anchored t = Pattern.anchor t := by
  simp [anchored, Pattern.anchor]

theorem compiles_anchored_iff (h : Compiles t) : Compiles (anchored t) ↔ ¬ EndsInComment t ∧ HasRoom t := by
  rw [Compiles, anchored_eq]
  exact Pattern.isSome_parse?_anchor_iff h

/-- A pattern that can be read between the ends of a text is valid unless it closes a group from outside. -/
theorem compiles_iff_of_anchored (h : Compiles (anchored t)) : Compiles t ↔ ¬ ClosesOutside t := by
  refine ⟨Pattern.not_closesOutside, fun hno => ?_⟩
  obtain ⟨q, hq⟩ := Option.isSome_iff_exists.mp h
  rw [anchored_eq] at hq
  obtain ⟨p, hp, -⟩ := Pattern.parse?_of_parse?_anchor hno hq
  exact Option.isSome_of_eq_some hp

/-- What is read between the ends matches a content if the pattern by itself matches all of it. -/
theorem isMatch_anchored {p q : Pattern} (hp : parse? t = some p) (hq : parse? (anchored t) = some q)
    (content : Text) : isMatch q content = true ↔ p.Matches content 0 content.length := by
  rw [anchored_eq] at hq
  have hno := Pattern.not_closesOutside (Option.isSome_of_eq_some hp)
  obtain ⟨p', hp', rfl⟩ := Pattern.parse?_of_parse?_anchor hno hq
  cases hp.symm.trans hp'
  exact Pattern.isMatch_betweenEnds

/-! ### One specification -/

namespace TagSpec

theorem content_withoutContentPattern (s : TagSpec) :
    (s.withoutContentPattern.content.map ContentSpec.disallowed).getD [] =
      (s.content.map ContentSpec.disallowed).getD [] ∧
    s.withoutContentPattern.content.bind ContentSpec.pattern = none := by
  rw [withoutContentPattern]
  cases s.content <;> exact ⟨rfl, rfl⟩

theorem forall_mem_patterns_iff_without : (∀ p ∈ s.patterns, Compiles p.2) ↔
    (∀ p ∈ s.withoutContentPattern.patterns, Compiles p.2) ∧
      ∀ t ∈ s.content.bind ContentSpec.pattern, Compiles (anchored t) := by
  obtain ⟨hdisallowed, hpattern⟩ := s.content_withoutContentPattern
  rw [forall_mem_patterns_iff, forall_mem_patterns_iff, hdisallowed, hpattern]
  exact and_congr_left' (and_iff_left nofun).symm

/-- A specification with a pattern for the whole content has it ready as it is read between the ends. -/
theorem exists_of_wholePattern_eq_ok {w : Option CompiledPattern} (h : s.wholePattern = .ok w)
    (ht : t ∈ s.content.bind ContentSpec.pattern) : ∃ q ∈ w, parse? (anchored t) = some q.pattern := by
  rw [wholePattern, ht, Option.mapM_some] at h
  obtain ⟨q, hq, hw⟩ := exists_of_bind_eq_ok h
  cases hw
  refine ⟨q, rfl, ?_⟩
  rw [TagSpec.pattern, CompiledPattern.ofText?] at hq
  cases hparse : parse? (anchored t) <;> rw [hparse] at hq <;> cases hq
  rfl

end TagSpec

/-! ### Rules -/

theorem sound_iff_without : Sound rules rules.tags ↔
    Sound rules.withoutContentPatterns rules.withoutContentPatterns.tags ∧
      ∀ s ∈ rules.tags, ∀ t ∈ s.content.bind ContentSpec.pattern, Compiles (anchored t) := by
  have hnames : rules.withoutContentPatterns.tags.map TagSpec.name = rules.tags.map TagSpec.name :=
    List.map_map.trans rfl
  constructor
  · rintro ⟨hnodup, hlists, hpatterns⟩
    refine ⟨⟨hnames ▸ hnodup, List.forall_mem_map.mpr hlists, List.forall_mem_map.mpr fun s hs => ?_⟩,
      fun s hs => ?_⟩
    · exact (TagSpec.forall_mem_patterns_iff_without.1 (hpatterns s hs)).1
    · exact (TagSpec.forall_mem_patterns_iff_without.1 (hpatterns s hs)).2
  · rintro ⟨⟨hnodup, hlists, hpatterns⟩, hwhole⟩
    refine ⟨hnames ▸ hnodup, List.forall_mem_map.mp hlists, fun s hs => ?_⟩
    exact TagSpec.forall_mem_patterns_iff_without.2 ⟨List.forall_mem_map.mp hpatterns s hs, hwhole s hs⟩

namespace Repository

theorem exists_ofRules_eq_ok_iff_without : (∃ r, ofRules rules = .ok r) ↔
    (∃ r, ofRules rules.withoutContentPatterns = .ok r) ∧
      ∀ s ∈ rules.tags, ∀ t ∈ s.content.bind ContentSpec.pattern, Compiles (anchored t) := by
  rw [exists_ofRules_eq_ok_iff, exists_ofRules_eq_ok_iff]
  exact sound_iff_without

theorem wholePattern_of_mem_specs (h : ofRules rules = .ok r) (hc : c ∈ r.specs) :
    c.spec.wholePattern = .ok c.wholePattern := by
  have hcompile := compile_compileAfter (ofRules_eq_ok_iff.1 h).2 c hc
  obtain ⟨_, -, -, hwhole, -⟩ := TagSpec.compile_eq_ok_iff.1 hcompile
  exact hwhole

/-- In rules that have been loaded, a pattern for the whole content is valid if and only if it closes no group
that it does not open, and then it matches a content if and only if it matches all of it. Rules whose patterns for
the whole content are valid can be loaded if and only if they can be without these patterns and none of these ends
in a comment or uses up what limits patterns. -/
theorem wholePattern_ofRules (rules : RuleSet) :
    (∀ r, ofRules rules = .ok r → ∀ c ∈ r.specs, ∀ t ∈ c.spec.content.bind ContentSpec.pattern,
      ∃ q ∈ c.wholePattern, (Compiles t ↔ ¬ ClosesOutside t) ∧ ∀ p, parse? t = some p →
        ∀ content, isMatch q.pattern content = true ↔ p.Matches content 0 content.length) ∧
    ((∀ s ∈ rules.tags, ∀ t ∈ s.content.bind ContentSpec.pattern, Compiles t) →
      ((∃ r, ofRules rules = .ok r) ↔ (∃ r, ofRules rules.withoutContentPatterns = .ok r) ∧
        ∀ s ∈ rules.tags, ∀ t ∈ s.content.bind ContentSpec.pattern, ¬ EndsInComment t ∧ HasRoom t)) := by
  refine ⟨fun r hr c hc t ht => ?_, fun hvalid => ?_⟩
  · obtain ⟨q, hq, hread⟩ := TagSpec.exists_of_wholePattern_eq_ok (wholePattern_of_mem_specs hr hc) ht
    exact ⟨q, hq, compiles_iff_of_anchored (Option.isSome_of_eq_some hread),
      fun p hp => isMatch_anchored hp hread⟩
  · rw [exists_ofRules_eq_ok_iff_without]
    refine and_congr_right fun _ => forall₂_congr fun s hs => forall₂_congr fun t ht => ?_
    exact compiles_anchored_iff (hvalid s hs t ht)

/-- Rules for one tag with a pattern for the whole content. -/
def rulesWithPattern (t : Text) : RuleSet :=
  ⟨[], [{ tag := "p", content := some { pattern := some t } }]⟩

theorem wholePattern_ofRules_repeated :
    (∃ p, parse? "a+" = some p ∧ ∃ r, ofRules (rulesWithPattern "a+") = .ok r ∧ ∃ c ∈ r.specs,
      ∃ q ∈ c.wholePattern, ∀ content, isMatch q.pattern content = true ↔ p.Matches content 0 content.length) ∧
    ∃ r, ofRules (rulesWithPattern "a+") = .ok r := by
  obtain ⟨hmatches, hloads⟩ := wholePattern_ofRules (rulesWithPattern "a+")
  have hvalid : ∀ s ∈ (rulesWithPattern "a+").tags, ∀ t ∈ s.content.bind ContentSpec.pattern, Compiles t := by
    rintro s (_ | ⟨_, ⟨⟩⟩) t ⟨⟩
    rfl
  obtain ⟨q, hq, -, hmatch⟩ := hmatches _ rfl _ List.mem_cons_self _ rfl
  refine ⟨⟨_, rfl, _, rfl, _, List.mem_cons_self, q, hq, hmatch _ rfl⟩,
    (hloads hvalid).mpr ⟨⟨_, rfl⟩, ?_⟩⟩
  rintro s (_ | ⟨_, ⟨⟩⟩) t ⟨⟩
  exact ⟨nofun, _, rfl, by decide⟩

/-- A pattern that is not valid by itself closes the group around it and opens another one. -/
example : parse? "a)|(?:b" = none ∧ ∃ r, ofRules (rulesWithPattern "a)|(?:b") = .ok r :=
  ⟨rfl, _, rfl⟩

/-- A comment at the end of a valid pattern takes away the end of the group around it. -/
example : Compiles "(?x)a # c" ∧
    ofRules (rulesWithPattern "(?x)a # c") = .error (.invalidPattern "p" "(?x)a # c") :=
  ⟨rfl, rfl⟩

end Repository

end AmpMarkup.Rules
