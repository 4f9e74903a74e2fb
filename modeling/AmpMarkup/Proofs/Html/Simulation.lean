import AmpMarkup.Proofs.Html.Growth
import AmpMarkup.Proofs.Html.TokenLikeness

/-! Two documents under construction from related tokens. The rules look at the mode, the open elements
with their tags and the head, and at which of the tags they know a tag is. So they take the same way
for two documents that agree in that, and a relation that every single change keeps is kept by them. -/

namespace AmpMarkup.Html

open Dom (Content NodeId Tree)

/-- The tags are the same, or the rules know neither: those that they know are without underscores. -/
def TagsAgree (n n' : Text) : Prop :=
  n = n' ∨ '_' ∈ n ∧ '_' ∈ n'

/-- What the rules look at is the same in both documents under construction. -/
structure Builder.Agrees (b b' : Builder) : Prop where
  size : b.tree.size = b'.tree.size
  tag? : b.tree.tag? = b'.tree.tag?
  mode : b.mode = b'.mode
  openElements : b.openElements = b'.openElements
  head : b.head = b'.head
  stopped : b.stopped = b'.stopped

/-- The tokens are of one kind, with related tags, attributes and data. -/
inductive Token.Related (T : Text → Text → Prop) (A : List Attribute → List Attribute → Prop)
    (D : Content → Content → Prop) : Token → Token → Prop where
  | doctype {name name' : Option Text}
      (h : D (.doctype (name.getD [])) (.doctype (name'.getD []))) :
      Related T A D (.doctype name) (.doctype name')
  | startTag {tag tag' : Text} {attributes attributes' : List Attribute} (selfClosing : Bool)
      (ht : T tag tag') (ha : A attributes attributes') :
      Related T A D (.startTag tag attributes selfClosing) (.startTag tag' attributes' selfClosing)
  | endTag {tag tag' : Text} (ht : T tag tag') : Related T A D (.endTag tag) (.endTag tag')
  | comment {data data' : Text} (h : D (.comment data) (.comment data')) :
      Related T A D (.comment data) (.comment data')
  | character (c : Char) : Related T A D (.character c) (.character c)
  | endOfFile : Related T A D .endOfFile .endOfFile

/-- The rules of a mode did the same to both documents under construction. -/
inductive Outcome.Related (R S : Builder → Builder → Prop) : Outcome → Outcome → Prop where
  | settled {b b' : Builder} (h : S b b') : Related R S (.settled b) (.settled b')
  | passed (next : Phase) {b b' : Builder} (h : R b b') :
      Related R S (.passed next b) (.passed next b')

/-- Changes keep two documents under construction related. A change by a tag or by attributes may
leave the wider relation `S` alone, which holds from then on. -/
structure Simulation (T : Text → Text → Prop) (A : List Attribute → List Attribute → Prop)
    (D : Content → Content → Prop) (R S : Builder → Builder → Prop) : Prop where
  same (tag : Text) : T tag tag
  tags {n n' : Text} : T n n' → TagsAgree n n'
  agrees {b b' : Builder} : R b b' → b.Agrees b'
  settle {b b' : Builder} : R b b' → S b b'
  /-- A change that leaves the tree and the repairs alone. -/
  reframe {b b' c c' : Builder} : R b b' → c.Agrees c' → c.tree = b.tree → c'.tree = b'.tree →
    c.issues = b.issues → c'.issues = b'.issues → R c c'
  note {b b' : Builder} {n n' : Text} : R b b' → T n n' → ∀ cause : Text → Cause,
    R (b.note (cause n)) (b'.note (cause n'))
  insertBelow {b b' : Builder} {content content' : Content} : R b b' → D content content' →
    ∀ parent, R (b.insertBelow parent content) (b'.insertBelow parent content')
  insertText {b b' : Builder} : R b b' → ∀ data, R (b.insertText data) (b'.insertText data)
  insertBare {b b' : Builder} : R b b' → ∀ tag, R (b.insertElement tag []) (b'.insertElement tag [])
  insertElement {b b' : Builder} {n n' : Text} {l l' : List Attribute} : R b b' → T n n' → A l l' →
    S (b.insertElement n l) (b'.insertElement n' l')
  merge {b b' : Builder} {l l' : List Attribute} : R b b' → A l l' →
    ∀ target, S (b.merge target l) (b'.merge target l')
  closeMatching {b b' : Builder} {n n' : Text} : R b b' → T n n' →
    ∀ ids, S (b.closeMatching n ids) (b'.closeMatching n' ids)
  /-- A change that takes no element away. -/
  after {b b' c c' : Builder} : S b b' → (R b b' → R c c') → b.Grows c → b'.Grows c' → S c c'

variable {T : Text → Text → Prop} {A : List Attribute → List Attribute → Prop}
  {D : Content → Content → Prop} {R S : Builder → Builder → Prop} {b b' : Builder} {t t' : Token}
  {tag tag' w : Text} {ws : List Text} {attributes attributes' : List Attribute}

/-! ### Tags -/

/-- The tags that the rules know are without underscores. -/
theorem no_underscore : ∀ ws ∈ [Category.headContent, Category.structural, Category.headings,
    Category.bodyTexts, Category.endsParagraph, Category.blocks], ∀ w ∈ ws, '_' ∉ w := by
  decide

namespace TagsAgree

theorem eq_of_mem (h : TagsAgree tag tag') (hw : ∀ w ∈ ws, '_' ∉ w) (hm : tag ∈ ws) :
    tag = tag' := by
  rcases h with h | ⟨h, -⟩
  · exact h
  · exact absurd h (hw tag hm)

theorem contains_eq (h : TagsAgree tag tag') (hw : ∀ w ∈ ws, '_' ∉ w) :
    ws.contains tag = ws.contains tag' := by
  rcases h with rfl | ⟨h, h'⟩
  · rfl
  · rw [Bool.eq_iff_iff, List.contains_iff_mem, List.contains_iff_mem]
    exact iff_of_false (fun hm => hw _ hm h) fun hm => hw _ hm h'

theorem eq_iff (h : TagsAgree tag tag') (hw : '_' ∉ w) : tag = w ↔ tag' = w := by
  rcases h with rfl | ⟨h, h'⟩
  · rfl
  · refine iff_of_false ?_ ?_ <;> rintro rfl
    · exact hw h
    · exact hw h'

theorem isVoid_eq (h : TagsAgree tag tag') :
    Vocabulary.isVoid tag = Vocabulary.isVoid tag' := by
  have hunknown : ∀ t : Text, '_' ∈ t → Vocabulary.isVoid t = false := fun t ht => by
    have hl : '_' ∈ t.lower := List.mem_map_of_mem (f := Char.toLower) ht
    refine Bool.eq_false_iff.2 fun hv => ?_
    have hall : ∀ v ∈ Vocabulary.voidElements, '_' ∉ v := by decide
    exact hall _ (List.contains_iff_mem.1 hv) hl
  rcases h with rfl | ⟨h, h'⟩
  · rfl
  · rw [hunknown tag h, hunknown tag' h']

end TagsAgree

/-! ### What the rules look at -/

namespace Builder.Agrees

variable (h : b.Agrees b')
include h

theorem current : b.current = b'.current := by
  rw [Builder.current, Builder.current, h.openElements]

theorem currentTag? : b.currentTag? = b'.currentTag? := by
  rw [Builder.currentTag?, Builder.currentTag?, h.openElements, h.tag?]

theorem openTags : b.openTags = b'.openTags := by
  rw [Builder.openTags, Builder.openTags, h.openElements, h.tag?]

theorem outermost? : b.outermost? = b'.outermost? := by
  rw [Builder.outermost?, Builder.outermost?, h.openElements]

theorem hasInScope (tag : Text) (markers : List Text) :
    b.hasInScope tag markers = b'.hasInScope tag markers := by
  rw [Builder.hasInScope, Builder.hasInScope, h.openTags]

theorem hasParagraph : b.hasParagraph = b'.hasParagraph :=
  h.hasInScope ..

theorem inForeign : b.inForeign = b'.inForeign := by
  rw [Builder.inForeign, Builder.inForeign, h.openTags]

end Builder.Agrees

namespace Simulation

variable (s : Simulation T A D R S)
include s

/-! ### Changes that leave the tree alone -/

section
variable (h : R b b')
include h

theorem enter (p : Phase) : R (b.enter p) (b'.enter p) :=
  have ha := s.agrees h
  s.reframe h ⟨ha.size, ha.tag?, rfl, ha.openElements, ha.head, ha.stopped⟩ rfl rfl rfl rfl

theorem enterText (p : Phase) : R (b.enterText p) (b'.enterText p) :=
  have ha := s.agrees h
  s.reframe h ⟨ha.size, ha.tag?, rfl, ha.openElements, ha.head, ha.stopped⟩ rfl rfl rfl rfl

theorem stop : R { b with stopped := true } { b' with stopped := true } :=
  have ha := s.agrees h
  s.reframe h ⟨ha.size, ha.tag?, ha.mode, ha.openElements, ha.head, rfl⟩ rfl rfl rfl rfl

theorem moveOn (n m : Nat) : R { b with position := n } { b' with position := m } :=
  have ha := s.agrees h
  s.reframe h ⟨ha.size, ha.tag?, ha.mode, ha.openElements, ha.head, ha.stopped⟩ rfl rfl rfl rfl

theorem setOpen {ids ids' : List NodeId} (hids : ids = ids') :
    R { b with openElements := ids } { b' with openElements := ids' } :=
  have ha := s.agrees h
  s.reframe h ⟨ha.size, ha.tag?, ha.mode, hids, ha.head, ha.stopped⟩ rfl rfl rfl rfl

theorem setHead {head head' : Option NodeId} (hhead : head = head') :
    R { b with head := head } { b' with head := head' } :=
  have ha := s.agrees h
  s.reframe h ⟨ha.size, ha.tag?, ha.mode, ha.openElements, hhead, ha.stopped⟩ rfl rfl rfl rfl

theorem noteSame (cause : Cause) : R (b.note cause) (b'.note cause) :=
  s.note h (s.same []) fun _ => cause

theorem pop : R b.pop b'.pop :=
  s.setOpen h (congrArg List.tail (s.agrees h).openElements)

theorem popThrough (tags : List Text) : R (b.popThrough tags) (b'.popThrough tags) :=
  s.setOpen h (by rw [(s.agrees h).openElements, (s.agrees h).tag?])

theorem closeImplied (except : Option Text) : R (b.closeImplied except) (b'.closeImplied except) :=
  s.setOpen h (by rw [(s.agrees h).openElements, (s.agrees h).tag?])

theorem closeElement (except : Option Text) (tags : List Text) :
    R ((b.closeImplied except).popThrough tags) ((b'.closeImplied except).popThrough tags) :=
  s.popThrough (s.closeImplied h except) tags

theorem closeParagraph : R b.closeParagraph b'.closeParagraph := by
  have hc := s.closeImplied h (some "p")
  unfold Builder.closeParagraph
  refine s.popThrough ?_ ["p"]
  exact rel_ite (by rw [(s.agrees hc).currentTag?]) (fun _ => hc) fun _ => s.noteSame hc _

theorem endParagraph : R b.endParagraph b'.endParagraph := by
  unfold Builder.endParagraph
  exact rel_ite (by rw [(s.agrees h).hasParagraph]) (fun _ => s.closeParagraph h) fun _ => h

theorem endItem (family : List Text) : R (b.endItem family) (b'.endItem family) := by
  rw [Builder.endItem, Builder.endItem, (s.agrees h).openTags]
  split
  · exact s.endParagraph (s.closeElement h _ _)
  · exact s.endParagraph h

end

/-- A change that leaves the tree alone. -/
theorem afterSame {c c' : Builder} (h : S b b') (hc : R b b' → R c c') (ht : c.tree = b.tree)
    (ht' : c'.tree = b'.tree) : S c c' :=
  s.after h hc (Builder.grows_of_tree_eq ht) (Builder.grows_of_tree_eq ht')

theorem enterAfter (h : S b b') (p : Phase) : S (b.enter p) (b'.enter p) :=
  s.afterSame h (fun hr => s.enter hr p) rfl rfl

theorem enterTextAfter (h : S b b') (p : Phase) : S (b.enterText p) (b'.enterText p) :=
  s.afterSame h (fun hr => s.enterText hr p) rfl rfl

theorem popAfter (h : S b b') : S b.pop b'.pop :=
  s.afterSame h s.pop rfl rfl

/-! ### Start tags -/

section
variable (h : R b b') (ha : A attributes attributes')
include h ha

theorem insertLeaf (ht : T tag tag') :
    S (b.insertLeaf tag attributes) (b'.insertLeaf tag' attributes') :=
  s.popAfter (s.insertElement h ht ha)

theorem insertHead : S (b.insertHead attributes) (b'.insertHead attributes') :=
  s.afterSame (s.insertElement h (s.same "head") ha)
    (fun hr => s.setHead hr (congrArg some (s.agrees h).size)) rfl rfl

theorem htmlAgain : S (b.htmlAgain attributes) (b'.htmlAgain attributes') := by
  rw [Builder.htmlAgain, Builder.htmlAgain, (s.agrees h).outermost?]
  exact s.merge (s.noteSame h _) ha _

theorem bodyAgain : S (b.bodyAgain attributes) (b'.bodyAgain attributes') := by
  rw [Builder.bodyAgain, Builder.bodyAgain, (s.agrees h).openElements, (s.agrees h).tag?]
  exact s.merge (s.noteSame h _) ha _

theorem insertHeadContent (p : Phase) (tag : Text) :
    S (b.insertHeadContent p tag attributes) (b'.insertHeadContent p tag attributes') := by
  have hin := s.insertElement h (s.same tag) ha
  unfold Builder.insertHeadContent
  refine rel_ite .rfl (fun _ => s.popAfter hin) fun _ => ?_
  exact rel_ite .rfl (fun _ => s.enterTextAfter hin p) fun _ => hin

theorem insertLateHeadContent (tag : Text) :
    S (b.insertLateHeadContent tag attributes) (b'.insertLateHeadContent tag attributes') := by
  have hn := s.noteSame h (.lateHeadContent tag)
  rw [Builder.insertLateHeadContent, Builder.insertLateHeadContent, (s.agrees h).head]
  cases b'.head with
  | none => exact s.settle hn
  | some head =>
      have hopen := s.setOpen hn (congrArg (head :: ·) (s.agrees h).openElements)
      have hin := s.insertHeadContent hopen ha .afterHead tag
      refine s.afterSame hin (fun hr => s.setOpen hr ?_) rfl rfl
      exact congrArg (List.filter (· != head)) (s.agrees hr).openElements

theorem bodyStartTag (ht : T tag tag') (selfClosing : Bool) :
    S (b.bodyStartTag tag attributes selfClosing)
      (b'.bodyStartTag tag' attributes' selfClosing) := by
  have hin : ∀ {c c' : Builder}, R c c' →
      S (c.insertElement tag attributes) (c'.insertElement tag' attributes') := fun hc =>
    s.insertElement hc ht ha
  have hp := s.endParagraph h
  have hn := s.tags ht
  unfold Builder.bodyStartTag
  refine rel_ite (hn.eq_iff (by decide)) (fun _ => s.htmlAgain h ha) fun _ => ?_
  refine rel_ite (by rw [hn.contains_eq (no_underscore _ (by simp))]) (fun hc => ?_) fun _ => ?_
  · obtain rfl := hn.eq_of_mem (no_underscore _ (by simp)) (List.contains_iff_mem.1 hc)
    exact s.insertHeadContent h ha _ _
  refine rel_ite (hn.eq_iff (by decide)) (fun _ => s.bodyAgain h ha) fun _ => ?_
  refine rel_ite (by rw [hn.contains_eq (no_underscore _ (by simp))]) (fun _ => hin ?_) fun _ => ?_
  · refine rel_ite (by rw [(s.agrees hp).currentTag?]) (fun _ => ?_) fun _ => hp
    exact s.pop (s.noteSame hp _)
  refine rel_ite (hn.eq_iff (by decide)) (fun _ => hin (s.endItem h _)) fun _ => ?_
  refine rel_ite (or_congr (hn.eq_iff (by decide)) (hn.eq_iff (by decide)))
    (fun _ => hin (s.endItem h _)) fun _ => ?_
  refine rel_ite (hn.eq_iff (by decide)) (fun _ => hin ?_) fun _ => ?_
  · refine rel_ite (by rw [(s.agrees h).hasInScope]) (fun _ => ?_) fun _ => h
    exact s.closeElement (s.noteSame h _) _ _
  refine rel_ite (hn.eq_iff (by decide)) (fun _ => hin ?_) fun _ => ?_
  · exact rel_ite (by rw [(s.agrees h).currentTag?]) (fun _ => s.pop h) fun _ => h
  refine rel_ite (hn.eq_iff (by decide)) (fun _ => s.insertLeaf hp ha ht) fun _ => ?_
  refine rel_ite (hn.eq_iff (by decide)) (fun _ => ?_) fun _ => ?_
  · exact s.insertLeaf (s.noteSame h _) ha (s.same "img")
  refine rel_ite (by rw [hn.isVoid_eq]) (fun _ => s.insertLeaf h ha ht) fun _ => ?_
  refine rel_ite (by rw [hn.contains_eq (no_underscore _ (by simp))])
    (fun _ => s.enterTextAfter (hin h) _) fun _ => ?_
  refine rel_ite (hn.eq_iff (by decide)) (fun _ => s.enterTextAfter (hin hp) _) fun _ => ?_
  refine rel_ite (by rw [hn.contains_eq (no_underscore _ (by simp))]) (fun _ => ?_) fun _ => ?_
  · exact rel_ite (hn.eq_iff (by decide)) (fun _ => s.enterTextAfter (hin hp) _) fun _ => hin hp
  · have hsame : ∀ b : Builder, (if selfClosing ∧ b.inForeign then b.pop else b).tree = b.tree :=
      fun b => by split <;> rfl
    refine s.afterSame (hin h) (fun hr => ?_) (hsame _) (hsame _)
    exact rel_ite (by rw [(s.agrees hr).inForeign]) (fun _ => s.pop hr) fun _ => hr

end

/-! ### The rules of the modes -/

section
variable (h : R b b')
include h

theorem settled : Outcome.Related R S (.settled b) (.settled b') :=
  .settled (s.settle h)

theorem noted (cause : Cause) :
    Outcome.Related R S (.settled (b.note cause)) (.settled (b'.note cause)) :=
  s.settled (s.noteSame h cause)

theorem notedTag (ht : T tag tag') (cause : Text → Cause) :
    Outcome.Related R S (.settled (b.note (cause tag))) (.settled (b'.note (cause tag'))) :=
  s.settled (s.note h ht cause)

theorem commented {parent parent' : NodeId} (hp : parent = parent') {data data' : Text}
    (hd : D (.comment data) (.comment data')) :
    Outcome.Related R S (.settled (b.insertComment parent data))
      (.settled (b'.insertComment parent' data')) :=
  hp ▸ s.settled (s.insertBelow h hd parent)

theorem spaced (c : Char) :
    Outcome.Related R S (.settled (b.insertCharacter c)) (.settled (b'.insertCharacter c)) :=
  s.settled (s.insertText h [c])

theorem bodyEndTag (ht : T tag tag') : (b.bodyEndTag tag).Related R S (b'.bodyEndTag tag') := by
  have hn := s.tags ht
  have hscope := (s.agrees h).hasInScope
  have hclose : ∀ except tags, Outcome.Related R S
      (.settled ((b.closeImplied except).popThrough tags))
      (.settled ((b'.closeImplied except).popThrough tags)) := fun except tags =>
    s.settled (s.closeElement h except tags)
  unfold Builder.bodyEndTag
  refine rel_ite (hn.eq_iff (by decide)) (fun _ => ?_) fun _ => ?_
  · refine rel_ite (by rw [hscope]) (fun _ => s.settled (s.enter h _)) fun _ => ?_
    exact s.notedTag h ht (.notOpen · "body")
  refine rel_ite (hn.eq_iff (by decide)) (fun _ => ?_) fun _ => ?_
  · refine rel_ite (by rw [hscope]) (fun _ => .passed _ h) fun _ => ?_
    exact s.notedTag h ht (.notOpen · "body")
  refine rel_ite (hn.eq_iff (by decide)) (fun _ => s.settled (s.closeParagraph ?_)) fun _ => ?_
  · refine rel_ite (by rw [(s.agrees h).hasParagraph]) (fun _ => h) fun _ => ?_
    exact s.insertBare (s.note h ht (.notOpen · "p")) "p"
  refine rel_ite (hn.eq_iff (by decide)) (fun _ => ?_) fun _ => ?_
  · refine rel_ite (by rw [hscope]) (fun _ => hclose _ _) fun _ => ?_
    exact s.notedTag h ht (.notOpen · "li")
  refine rel_ite (or_congr (hn.eq_iff (by decide)) (hn.eq_iff (by decide))) (fun hc => ?_)
    fun _ => ?_
  · have hmem : tag ∈ ["dd".toList, "dt".toList] := by simpa using hc
    obtain rfl := hn.eq_of_mem (by decide) hmem
    exact rel_ite (by rw [hscope]) (fun _ => hclose _ _) fun _ => s.noted h _
  refine rel_ite (by rw [hn.contains_eq (no_underscore _ (by simp))]) (fun _ => ?_) fun _ => ?_
  · have hany : Category.headings.any (b.hasInScope · []) =
        Category.headings.any (b'.hasInScope · []) := by
      simp only [hscope]
    refine rel_ite (by rw [hany]) (fun _ => hclose _ _) fun _ => ?_
    exact s.notedTag h ht (.notOpen · "heading")
  refine rel_ite (by rw [hn.contains_eq (no_underscore _ (by simp))]) (fun hc => ?_) fun _ => ?_
  · obtain rfl := hn.eq_of_mem (no_underscore _ (by simp)) (List.contains_iff_mem.1 hc)
    exact rel_ite (by rw [hscope]) (fun _ => hclose _ _) fun _ => s.noted h _
  refine rel_ite (by rw [hn.isVoid_eq]) (fun _ => s.settled h) fun _ => ?_
  rw [(s.agrees h).openElements]
  exact .settled (s.closeMatching h ht _)

section
variable (ht : t.Related T A D t')
include ht

theorem initialRules : (b.initialRules t).Related R S (b'.initialRules t') := by
  cases ht with
  | doctype hd => exact s.settled (s.enter (s.insertBelow h hd Tree.root) _)
  | comment hd => exact s.commented h rfl hd
  | character c => exact rel_ite .rfl (fun _ => s.settled h) fun _ => .passed _ h
  | startTag | endTag | endOfFile => exact .passed _ h

theorem beforeHtmlRules : (b.beforeHtmlRules t).Related R S (b'.beforeHtmlRules t') := by
  have himplied : Outcome.Related R S (.passed .beforeHead (b.insertElement "html" []))
      (.passed .beforeHead (b'.insertElement "html" [])) := .passed _ (s.insertBare h "html")
  cases ht with
  | doctype hd => exact s.noted h _
  | comment hd => exact s.commented h rfl hd
  | character c => exact rel_ite .rfl (fun _ => s.settled h) fun _ => himplied
  | startTag selfClosing ht ha =>
      refine rel_ite ((s.tags ht).eq_iff (by decide)) (fun _ => ?_) fun _ => himplied
      exact .settled (s.enterAfter (s.insertElement h (s.same "html") ha) _)
  | endTag ht =>
      refine rel_ite ?_ (fun _ => himplied) fun _ => s.notedTag h ht .strayEndTag
      rw [(s.tags ht).contains_eq (no_underscore _ (by simp))]
  | endOfFile => exact himplied

theorem beforeHeadRules : (b.beforeHeadRules t).Related R S (b'.beforeHeadRules t') := by
  have himplied : Outcome.Related R S (.passed .inHead (b.insertHead []))
      (.passed .inHead (b'.insertHead [])) :=
    .passed _ (s.setHead (s.insertBare h "head") (congrArg some (s.agrees h).size))
  cases ht with
  | doctype hd => exact s.noted h _
  | comment hd => exact s.commented h (s.agrees h).current hd
  | character c => exact rel_ite .rfl (fun _ => s.settled h) fun _ => himplied
  | startTag selfClosing ht ha =>
      have hn := s.tags ht
      refine rel_ite (hn.eq_iff (by decide)) (fun _ => .settled (s.htmlAgain h ha)) fun _ => ?_
      refine rel_ite (hn.eq_iff (by decide)) (fun _ => ?_) fun _ => himplied
      exact .settled (s.enterAfter (s.insertHead h ha) _)
  | endTag ht =>
      refine rel_ite ?_ (fun _ => himplied) fun _ => s.notedTag h ht .strayEndTag
      rw [(s.tags ht).contains_eq (no_underscore _ (by simp))]
  | endOfFile => exact himplied

theorem inHeadRules : (b.inHeadRules t).Related R S (b'.inHeadRules t') := by
  have hleave : Outcome.Related R S (.passed .afterHead (b.popThrough ["head"]))
      (.passed .afterHead (b'.popThrough ["head"])) := .passed _ (s.popThrough h ["head"])
  cases ht with
  | doctype hd => exact s.noted h _
  | comment hd => exact s.commented h (s.agrees h).current hd
  | character c => exact rel_ite .rfl (fun _ => s.spaced h c) fun _ => hleave
  | @startTag tag tag' attributes attributes' selfClosing ht ha =>
      have hn := s.tags ht
      refine rel_ite (hn.eq_iff (by decide)) (fun _ => .settled (s.htmlAgain h ha)) fun _ => ?_
      refine rel_ite (or_congr (hn.eq_iff (by decide))
        (by rw [hn.contains_eq (no_underscore _ (by simp))])) (fun hc => ?_) fun _ => ?_
      · have hmem : tag ∈ "noscript".toList :: Category.headContent := by simpa using hc
        obtain rfl := hn.eq_of_mem (by decide) hmem
        exact .settled (s.insertHeadContent h ha _ _)
      · exact rel_ite (hn.eq_iff (by decide)) (fun _ => s.noted h _) fun _ => hleave
  | @endTag tag tag' ht =>
      have hn := s.tags ht
      refine rel_ite (hn.eq_iff (by decide)) (fun _ => ?_) fun _ => ?_
      · exact s.settled (s.enter (s.popThrough h _) _)
      by_cases hc : tag = "noscript".toList ∨ tag = "template".toList
      · have hmem : tag ∈ ["noscript".toList, "template".toList] := by simpa using hc
        obtain rfl := hn.eq_of_mem (by decide) hmem
        refine rel_ite (by rw [(s.agrees h).openTags]) (fun _ => s.settled (s.popThrough h _))
          fun _ => ?_
        refine rel_ite .rfl (fun _ => hleave) fun _ => ?_
        exact rel_ite .rfl (fun _ => s.settled h) fun _ => s.noted h _
      · have hc' : ¬ (tag' = "noscript".toList ∨ tag' = "template".toList) := fun hc' =>
          hc (hc'.imp (hn.eq_iff (by decide)).2 (hn.eq_iff (by decide)).2)
        refine rel_ite (iff_of_false (fun h => hc h.1) fun h => hc' h.1)
          (fun h => absurd h.1 hc) fun _ => ?_
        refine rel_ite (by rw [hn.contains_eq (no_underscore _ (by simp))]) (fun _ => hleave)
          fun _ => ?_
        refine rel_ite (by rw [hn.isVoid_eq]) (fun _ => s.settled h) fun _ => ?_
        exact s.notedTag h ht .strayEndTagInHead
  | endOfFile => exact hleave

theorem afterHeadRules : (b.afterHeadRules t).Related R S (b'.afterHeadRules t') := by
  have himplied : Outcome.Related R S (.passed .inBody (b.insertElement "body" []))
      (.passed .inBody (b'.insertElement "body" [])) := .passed _ (s.insertBare h "body")
  cases ht with
  | doctype hd => exact s.noted h _
  | comment hd => exact s.commented h (s.agrees h).current hd
  | character c => exact rel_ite .rfl (fun _ => s.spaced h c) fun _ => himplied
  | startTag selfClosing ht ha =>
      have hn := s.tags ht
      refine rel_ite (hn.eq_iff (by decide)) (fun _ => .settled (s.htmlAgain h ha)) fun _ => ?_
      refine rel_ite (hn.eq_iff (by decide)) (fun _ => ?_) fun _ => ?_
      · exact .settled (s.enterAfter (s.insertElement h (s.same "body") ha) _)
      refine rel_ite (by rw [hn.contains_eq (no_underscore _ (by simp))]) (fun hc => ?_)
        fun _ => ?_
      · obtain rfl := hn.eq_of_mem (no_underscore _ (by simp)) (List.contains_iff_mem.1 hc)
        exact .settled (s.insertLateHeadContent h ha _)
      · exact rel_ite (hn.eq_iff (by decide)) (fun _ => s.noted h _) fun _ => himplied
  | endTag ht =>
      have hn := s.tags ht
      refine rel_ite (and_congr (not_congr (hn.eq_iff (by decide))) ?_) (fun _ => himplied)
        fun _ => s.notedTag h ht .strayEndTag
      rw [hn.contains_eq (no_underscore _ (by simp))]
  | endOfFile => exact himplied

theorem inBodyRules : (b.inBodyRules t).Related R S (b'.inBodyRules t') := by
  cases ht with
  | doctype hd => exact s.noted h _
  | comment hd => exact s.commented h (s.agrees h).current hd
  | character c => exact rel_ite .rfl (fun _ => s.noted h _) fun _ => s.spaced h c
  | startTag selfClosing ht ha => exact .settled (s.bodyStartTag h ha ht selfClosing)
  | endTag ht => exact s.bodyEndTag h ht
  | endOfFile => exact s.settled (s.stop h)

theorem afterBodyRules : (b.afterBodyRules t).Related R S (b'.afterBodyRules t') := by
  have hreopen : Outcome.Related R S (.passed .inBody (b.note .contentAfterBody))
      (.passed .inBody (b'.note .contentAfterBody)) := .passed _ (s.noteSame h _)
  cases ht with
  | doctype hd => exact s.noted h _
  | comment hd => exact s.commented h (by rw [(s.agrees h).outermost?]) hd
  | character c => exact rel_ite .rfl (fun _ => s.spaced h c) fun _ => hreopen
  | startTag selfClosing ht ha =>
      exact rel_ite ((s.tags ht).eq_iff (by decide)) (fun _ => .settled (s.htmlAgain h ha))
        fun _ => hreopen
  | endTag ht =>
      exact rel_ite ((s.tags ht).eq_iff (by decide)) (fun _ => s.settled (s.enter h _))
        fun _ => hreopen
  | endOfFile => exact s.settled (s.stop h)

theorem afterAfterBodyRules :
    (b.afterAfterBodyRules t).Related R S (b'.afterAfterBodyRules t') := by
  have hreopen : Outcome.Related R S (.passed .inBody (b.note .contentAfterHtml))
      (.passed .inBody (b'.note .contentAfterHtml)) := .passed _ (s.noteSame h _)
  cases ht with
  | doctype hd => exact s.noted h _
  | comment hd => exact s.commented h rfl hd
  | character c => exact rel_ite .rfl (fun _ => s.spaced h c) fun _ => hreopen
  | startTag selfClosing ht ha =>
      exact rel_ite ((s.tags ht).eq_iff (by decide)) (fun _ => .settled (s.htmlAgain h ha))
        fun _ => hreopen
  | endTag ht => exact hreopen
  | endOfFile => exact s.settled (s.stop h)

theorem plainTextRules (resume : Phase) :
    (b.plainTextRules resume t).Related R S (b'.plainTextRules resume t') := by
  cases ht with
  | character c => exact s.spaced h c
  | endOfFile => exact .passed _ (s.pop (s.noteSame h _))
  | doctype | startTag | endTag | comment => exact s.settled (s.enter (s.pop h) _)

theorem rules : (b.rules t).Related R S (b'.rules t') := by
  rw [Builder.rules, Builder.rules, (s.agrees h).mode]
  split
  · exact s.initialRules h ht
  · exact s.beforeHtmlRules h ht
  · exact s.beforeHeadRules h ht
  · exact s.inHeadRules h ht
  · exact s.afterHeadRules h ht
  · exact s.inBodyRules h ht
  · exact s.afterBodyRules h ht
  · exact s.afterAfterBodyRules h ht
  · exact s.plainTextRules h ht _

end

end

/-- Related tokens are settled in step. -/
theorem process (h : R b b') (ht : t.Related T A D t') : S (b.process t) (b'.process t') := by
  fun_induction Builder.process b t generalizing b' with
  | case1 b c hc =>
      have ho := s.rules h ht
      rw [hc] at ho
      generalize hc' : b'.rules t' = o at ho
      cases ho with
      | settled hs => rwa [Builder.process_of_settled hc']
  | case2 b next c hc ih =>
      have ho := s.rules h ht
      rw [hc] at ho
      generalize hc' : b'.rules t' = o at ho
      cases ho with
      | passed _ hp =>
          rw [Builder.process_of_passed hc']
          exact ih (s.enter hp next)

end Simulation

end AmpMarkup.Html
