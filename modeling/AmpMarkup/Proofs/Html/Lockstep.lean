import AmpMarkup.Proofs.Html.BuilderLikeness

/-! Construction from alike tokens runs in step: the rules take the same way for both documents. In the
end the two trees are alike, or a stand-in shows in an element of one of them. -/

namespace AmpMarkup.Html

open Dom (Tree NodeId)
open Source (Registry Alike AlikeUnmarked Hides)

variable {r r' : Registry} {b b' : Builder} {t t' : Token} {ts ts' : List Token}

theorem Token.Like.related (hr : r.WellFormed) (hr' : r'.WellFormed) (h : t.Like r r' t') :
    t.Related (TagLike r r') (AttributesLike r r') (Dom.Content.Like r r') t' := by
  cases h with
  | doctype name name' => exact .doctype (.doctype ..)
  | startTag selfClosing hn ha => exact .startTag selfClosing (tagLike_of_alike hr hr' hn) ha
  | endTag hn => exact .endTag (tagLike_of_alike hr hr' hn)
  | comment data data' => exact .comment (.comment ..)
  | character c => exact .character c
  | endOfFile => exact .endOfFile

/-! ### Stand-ins in the text -/

namespace Builder

/-- A character that is neither a space nor U+0000 goes into the text, or is passed on whatever it
is. -/
theorem rules_character (b : Builder) :
    (∀ c, c ≠ '\x00' → b.mode.takesAsText (.character c) = true ∧
      b.rules (.character c) = .settled (b.insertText [c])) ∨
    ∃ next d, ∀ c, isSpace c = false → b.rules (.character c) = .passed next d := by
  have hpass : ∀ {o : Outcome} {c : Char}, isSpace c = false → ∀ x,
      (if isSpace c then x else o) = o := fun hc x => if_neg (by rw [hc]; exact Bool.false_ne_true)
  cases hm : b.mode with
  | phase p =>
      simp only [rules, hm]
      cases p with
      | initial => exact .inr ⟨.beforeHtml, b, fun _ hc => hpass hc _⟩
      | beforeHtml => exact .inr ⟨.beforeHead, b.insertElement "html" [], fun _ hc => hpass hc _⟩
      | beforeHead => exact .inr ⟨.inHead, b.insertHead [], fun _ hc => hpass hc _⟩
      | inHead => exact .inr ⟨.afterHead, b.popThrough ["head"], fun _ hc => hpass hc _⟩
      | afterHead => exact .inr ⟨.inBody, b.insertElement "body" [], fun _ hc => hpass hc _⟩
      | inBody => exact .inl fun c hc => ⟨bne_iff_ne.2 hc, if_neg hc⟩
      | afterBody => exact .inr ⟨.inBody, b.note .contentAfterBody, fun _ hc => hpass hc _⟩
      | afterAfterBody => exact .inr ⟨.inBody, b.note .contentAfterHtml, fun _ hc => hpass hc _⟩
  | plainText resume =>
      simp only [rules, hm]
      exact .inl fun c hc => ⟨rfl, rfl⟩

/-- Characters that follow one that went into the text go there with it. -/
theorem run_characters {d : Builder} {c : Char} {u : Text} (hb : b.stopped = false)
    (hd : d.stopped = b.stopped) (hp : b.process (.character c) = d.insertText [c])
    (htakes : ∀ e ≠ '\x00', d.mode.takesAsText (.character e) = true) (hu : '\x00' ∉ u) :
    ∃ position, b.run ((c :: u).map .character) =
      { d.insertText (c :: u) with position := position } := by
  have hrun : b.run ((c :: u).map .character) =
      { d.insertText [c] with position := b.position + 1 }.run (u.map .character) := by
    rw [List.map_cons, run_cons hb, hp]
  rw [hrun]
  cases u with
  | nil => exact ⟨_, rfl⟩
  | cons e v =>
      have hd' : { d.insertText [c] with position := b.position + 1 }.stopped = false := hd.trans hb
      rw [List.map_cons, run_eq_runText hd', runText, insertText_insertText]
      · refine ⟨b.position + 1 + (v.length + 1), ?_⟩
        have hfilter : (.character e :: v.map Token.character).filterMap Token.character? =
            e :: v := by
          rw [← List.map_cons, List.filterMap_map]
          exact List.filterMap_some
        rw [hfilter, List.length_cons, List.length_map]
        rfl
      · intro x hx
        rw [← List.map_cons] at hx
        obtain ⟨e', he', rfl⟩ := List.mem_map.1 hx
        exact htakes e' fun h => hu (h ▸ he')

namespace Like

/-- Characters that are neither spaces nor U+0000 go into the text at the same place. -/
theorem process_character (h : b.Like r r' b') {c c' : Char}
    (hc : isSpace c = false ∧ c ≠ '\x00') (hc' : isSpace c' = false ∧ c' ≠ '\x00') :
    ∃ d d' : Builder, d.Like r r' d' ∧ b.process (.character c) = d.insertText [c] ∧
      b'.process (.character c') = d'.insertText [c'] ∧ d.stopped = b.stopped ∧
      ∀ e ≠ '\x00', d.mode.takesAsText (.character e) = true := by
  generalize ht : Token.character c = t
  fun_induction Builder.process b t generalizing b' with
  | case1 b d hd =>
      subst ht
      rcases b.rules_character with hin | ⟨next, d, hpass⟩
      · have hin' : b'.rules (.character c') = .settled (b'.insertText [c']) := by
          rcases b'.rules_character with hin' | ⟨next, d', hpass⟩
          · exact (hin' c' hc'.2).2
          · have ho := (simulation_like r r').rules h (.character c)
            rw [(hin c hc.2).2, hpass c hc.1] at ho
            cases ho
        refine ⟨b, b', h, ?_, process_of_settled hin', rfl, fun e he => (hin e he).1⟩
        exact Outcome.settled.inj (hd.symm.trans (hin c hc.2).2)
      · rw [hpass c hc.1] at hd
        cases hd
  | case2 b next d hd ih =>
      subst ht
      have ho := (simulation_like r r').rules h (.character c)
      rw [hd] at ho
      generalize hd' : b'.rules (.character c) = o at ho
      cases ho with
      | passed _ hp =>
          -- Alike builders are in one mode, and the rules of a mode pass on every such character or
          -- none.
          have hpassed : b'.rules (.character c') = b'.rules (.character c) := by
            rcases b'.rules_character with hin | ⟨next, d', hpass⟩
            · rw [(hin c hc.2).2] at hd'
              cases hd'
            · rw [hpass c hc.1, hpass c' hc'.1]
          have hstopped : d.stopped = b.stopped := by
            have hadvances := Outcome.Advances.rules b (.character c)
            rw [hd] at hadvances
            exact Builder.Advances.stopped hadvances (by simp)
          obtain ⟨e, e', he, hproc, hproc', hs, htakes⟩ := ih ((simulation_like r r').enter hp next)
          exact ⟨e, e', he, hproc, (process_of_passed (hpassed.trans hd')).trans hproc',
            hs.trans hstopped, htakes⟩

/-- A stand-in in the text. -/
theorem run_word (h : b.Like r r' b') {w w' : Text} (hw : Alike r r' w w') (hne : w ≠ [])
    (hne' : w' ≠ []) (hc : ∀ c ∈ w, isSpace c = false ∧ c ≠ '\x00')
    (hc' : ∀ c ∈ w', isSpace c = false ∧ c ≠ '\x00') :
    (b.run (w.map .character)).Like r r' (b'.run (w'.map .character)) := by
  cases hb : b.stopped with
  | true => rwa [run_of_stopped hb, run_of_stopped (h.stopped ▸ hb)]
  | false =>
      obtain ⟨c, u, rfl⟩ := List.exists_cons_of_ne_nil hne
      obtain ⟨c', u', rfl⟩ := List.exists_cons_of_ne_nil hne'
      obtain ⟨d, d', hd, hp, hp', hs, htakes⟩ := h.process_character
        (hc c List.mem_cons_self) (hc' c' List.mem_cons_self)
      have hs' : d'.stopped = b'.stopped := by rw [← hd.stopped, hs, h.stopped]
      obtain ⟨n, hrun⟩ := run_characters hb hs hp htakes fun hm =>
        (hc _ (List.mem_cons_of_mem _ hm)).2 rfl
      obtain ⟨n', hrun'⟩ := run_characters (h.stopped ▸ hb) hs' hp' (hd.mode ▸ htakes) fun hm =>
        (hc' _ (List.mem_cons_of_mem _ hm)).2 rfl
      have hin := hd.insertText hw
      rw [hrun, hrun']
      exact ⟨hin.tree, hin.mode, hin.openElements, hin.head, hin.stopped⟩

end Like

/-! ### Runs -/

/-- Construction from alike tokens. -/
theorem Tied.run (hr : r.WellFormed) (hr' : r'.WellFormed) (h : b.Tied r r' b')
    (ht : TokensLike r r' ts ts') : (b.run ts).Tied r r' (b'.run ts') := by
  induction ht generalizing b b' with
  | nil => exact h
  | @cons t t' ts ts' ht _ ih =>
      rcases h with h | h | h
      · have s := simulation_like r r'
        rw [Builder.run, Builder.run, h.stopped]
        refine rel_ite .rfl (fun _ => .inl h) fun _ => ih ?_
        exact s.afterSame (s.process h (ht.related hr hr')) (fun hl => s.moveOn hl _ _) rfl rfl
      · exact .inr (.inl (h.grow (b.grows_run _)))
      · exact .inr (.inr (h.grow (b'.grows_run _)))
  | @word a ts ts' ha _ ih =>
      rw [run_append, run_append]
      refine ih ?_
      rcases h with h | h | h
      · have hdelimiter : ∀ d, a = .delimiter d → d ∈ Source.delimiters := by
          rintro d rfl
          rcases ha with ha | ⟨e, he, ha⟩
          · cases ha
          · rwa [Source.Symbol.delimiter.inj ha]
        have hword : a.isWord = true := by
          rcases ha with rfl | ⟨d, -, rfl⟩ <;> rfl
        have hvisible : ∀ s : Registry, s.WellFormed → ∀ c ∈ a.spell s.spelling,
            isSpace c = false ∧ c ≠ '\x00' := fun s hs c hc => by
          have hc := hs.isNameChar_spell hdelimiter hword c hc
          exact ⟨Source.isSpace_of_isNameChar hc, Source.ne_of_isNameChar hc rfl⟩
        exact .inl (h.run_word (Source.alike_symbol hdelimiter)
          (hr.spell_ne_nil hdelimiter) (hr'.spell_ne_nil hdelimiter) (hvisible r hr)
          (hvisible r' hr'))
      · exact .inr (.inl (h.grow (b.grows_run _)))
      · exact .inr (.inr (h.grow (b'.grows_run _)))

theorem like_start : start.Like r r' start where
  tree := ⟨rfl, fun id => by
    have hget : Tree.empty.get? id = if id = 0 then some ⟨.document, none, []⟩ else none := by
      cases id <;> rfl
    rw [start, hget]
    split
    · exact .some ⟨.document, rfl, rfl⟩
    · exact .none⟩
  mode := rfl
  openElements := rfl
  head := rfl
  stopped := rfl

end Builder

/-- The trees of the encoded forms of markup under two registries are alike, or a stand-in shows in an
element of one of them. -/
theorem like_or_leaks_parse_encode (hr : r.WellFormed) (hr' : r'.WellFormed) (markup : Text) :
    (parse (Source.encode r markup)).1.Like r r' (parse (Source.encode r' markup)).1 ∨
      (parse (Source.encode r markup)).1.Leaks r (r.standIns ++ r'.standIns) ∨
        (parse (Source.encode r' markup)).1.Leaks r' (r.standIns ++ r'.standIns) := by
  rw [parse_eq_construct, parse_eq_construct]
  have h := Builder.Tied.run hr hr' (.inl Builder.like_start) (tokensLike_encode hr hr' markup)
  exact h.imp Builder.Like.tree id

end AmpMarkup.Html
