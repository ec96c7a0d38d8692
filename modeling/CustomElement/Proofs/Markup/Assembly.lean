import CustomElement.Proofs.Markup.TagCount
import CustomElement.Proofs.Outcome

/-!
# Documents put together from their sections

`Assembly` holds the attributes and contents of the sections of a document, the spelling of their tags and the text
around them. Reading the document finds the sections again (`parseDocument_assembly`), as long as nothing in it is
taken for one of their tags (`Assembly.Unambiguous`).
-/

namespace CustomElement.Markup

open List Text

variable {pos : Nat} {source : String} {pre r : List Char} {kind : SectionKind} {after : List Char}

/-- An attribute as it is written: a name alone, or a name and a value in double quotes. -/
structure WrittenAttribute where
  name : List Char
  value : Option (List Char)
  name_ne_nil : name ≠ []
  name_plain : ∀ c ∈ name, isBlank c = false ∧ c ∉ ['=', '>', '/', '"', '\'', '<']
  value_plain : ∀ v ∈ value, '"' ∉ v

def WrittenAttribute.text (a : WrittenAttribute) : List Char :=
  ' ' :: a.name ++
    match a.value with
    | none => []
    | some v => '=' :: '"' :: v ++ ['"']

def attributesText (as : List WrittenAttribute) : List Char := as.flatMap WrittenAttribute.text

/-- Where written attributes are found, `pos` being the offset of the first blank. -/
def attributesAt (pos : Nat) : List WrittenAttribute → List Attribute
  | [] => []
  | a :: as =>
    let start := pos + 1
    let afterName := start + byteLength a.name
    match a.value with
    | none =>
      let stop := if as.isEmpty then afterName else afterName + 1
      ⟨String.ofList a.name, none, ⟨start, stop⟩⟩ :: attributesAt afterName as
    | some v =>
      let stop := afterName + 2 + byteLength v
      ⟨String.ofList a.name, some ⟨String.ofList v, ⟨afterName + 2, stop⟩⟩, ⟨start, stop + 1⟩⟩ :: attributesAt (stop + 1) as

namespace Cursor

lemma readWhile_run {p : Char → Bool} {a : List Char} (pos : Nat) (ha : a.all p) (hr : r.head?.any p = false) :
    (Cursor.mk pos (a ++ r)).readWhile p = (a, ⟨pos + byteLength a, r⟩) := by
  obtain ⟨h1, h2⟩ := takeWhile_dropWhile_local ha hr
  simp only [readWhile, h1, h2]

lemma consume?_angle (pos : Nat) (r : List Char) : (Cursor.mk pos ('>' :: r)).consume? ">" = some ⟨pos + 1, r⟩ := by
  cases r <;> rfl

lemma skipBlanks_of_head (h : r.head?.any isBlank = false) : (Cursor.mk pos r).skipBlanks = ⟨pos, r⟩ := by
  have hr := readWhile_run (a := []) pos rfl h
  rw [nil_append] at hr
  rw [skipBlanks, hr]
  rfl

lemma skipBlanks_space (h : r.head?.any isBlank = false) : (Cursor.mk pos (' ' :: r)).skipBlanks = ⟨pos + 1, r⟩ := by
  have hr := readWhile_run (a := [' ']) pos (by decide) h
  rw [singleton_append] at hr
  rw [skipBlanks, hr]
  rfl

lemma skipBlanks_skipBlanks (c : Cursor) : c.skipBlanks.skipBlanks = c.skipBlanks := by
  exact skipBlanks_of_head (head?_dropWhile_any isBlank c.rest)

end Cursor

lemma readAttributes_skipBlanks (c : Cursor) : readAttributes c.skipBlanks = readAttributes c := by
  rw [readAttributes.eq_1 c.skipBlanks, readAttributes.eq_1 c, c.skipBlanks_skipBlanks]

section

variable {c start after assigned : Cursor} {name : List Char}

lemma readAttributes_stop (hs : c.skipBlanks = start)
    (hst : (start.startsWith ">" || start.startsWith "/>" || start.atEnd)) : readAttributes c = ([], start) := by
  subst hs
  rw [readAttributes, dif_pos hst]

variable (hs : c.skipBlanks = start) (hst : (start.startsWith ">" || start.startsWith "/>" || start.atEnd) = false)
  (hn : start.readAttributeName? = some (name, after))

include hs hst hn

lemma readAttributes_alone (ha : after.skipBlanks.consume? "=" = none) :
    readAttributes c = (⟨String.ofList name, none, after.skipBlanks.spanFrom start.pos⟩ :: (readAttributes after).1,
        (readAttributes after).2) := by
  subst hs
  rw [readAttributes, dif_neg (by simp [hst])]
  split
  · simp_all
  · rename_i name' after' hn'
    obtain ⟨rfl, rfl⟩ : name' = name ∧ after' = after := by simpa [hn] using hn'.symm
    split
    · rw [readAttributes_skipBlanks]
    · simp_all

lemma readAttributes_assigned (ha : after.skipBlanks.consume? "=" = some assigned) {v : AttributeValue} {post : Cursor}
    (hv : readValue assigned.skipBlanks = (v, post)) :
    readAttributes c = (⟨String.ofList name, some v, post.spanFrom start.pos⟩ :: (readAttributes post).1,
        (readAttributes post).2) := by
  subst hs
  rw [readAttributes, dif_neg (by simp [hst])]
  split
  · simp_all
  · rename_i name' after' hn'
    obtain ⟨rfl, rfl⟩ : name' = name ∧ after' = after := by simpa [hn] using hn'.symm
    split
    · simp_all
    · rename_i assigned' ha'
      obtain rfl : assigned' = assigned := by simpa [ha] using ha'.symm
      rw [hv]

end

lemma isNameChar_of_plain {c : Char} (h : isBlank c = false ∧ c ∉ ['=', '>', '/', '"', '\'', '<']) :
    Cursor.isNameChar c := by
  obtain ⟨hb, hm⟩ := h
  simp only [mem_cons, not_mem_nil, or_false, not_or] at hm
  simp [Cursor.isNameChar, hb, hm]

namespace WrittenAttribute

section

variable (a : WrittenAttribute)

lemma exists_cons : ∃ c cs, a.name = c :: cs ∧ Cursor.isNameChar c := by
  obtain ⟨c, cs, hn⟩ := exists_cons_of_ne_nil a.name_ne_nil
  exact ⟨c, cs, hn, isNameChar_of_plain (a.name_plain c (by simp [hn]))⟩

lemma all_isNameChar : a.name.all Cursor.isNameChar :=
  all_eq_true.2 fun c hc => isNameChar_of_plain (a.name_plain c hc)

lemma not_stop (pos : Nat) (r : List Char) : (a.name ++ r).head?.any isBlank = false ∧
      ((Cursor.mk pos (a.name ++ r)).startsWith ">" || (Cursor.mk pos (a.name ++ r)).startsWith "/>" ||
          (Cursor.mk pos (a.name ++ r)).atEnd) = false := by
  obtain ⟨c, cs, hn, hc⟩ := a.exists_cons
  obtain ⟨hb, ha, hs⟩ : isBlank c = false ∧ c ≠ '>' ∧ c ≠ '/' := by
    simp only [Cursor.isNameChar, Bool.and_eq_true, Bool.not_eq_true', Bool.or_eq_false_iff, beq_eq_false_iff_ne] at hc
    grind
  refine ⟨by simp [hn, hb], ?_⟩
  simp [hn, Cursor.startsWith, Cursor.atEnd, isPrefixOf, Ne.symm ha, Ne.symm hs]

lemma readAttributeName? (hr : r.head?.any Cursor.isNameChar = false) :
    (Cursor.mk pos (a.name ++ r)).readAttributeName? = some (a.name, ⟨pos + byteLength a.name, r⟩) := by
  obtain ⟨c, cs, hn, hc⟩ := a.exists_cons
  rw [Cursor.readAttributeName?, if_pos (by simp [Cursor.peek, hn, hc]), Cursor.readWhile_run pos a.all_isNameChar hr]

end

end WrittenAttribute

lemma readValue_quoted (pos : Nat) {v : List Char} (r : List Char) (hv : '"' ∉ v) :
    readValue ⟨pos, '"' :: (v ++ '"' :: r)⟩ =
      (⟨String.ofList v, ⟨pos + 1, pos + 1 + byteLength v⟩⟩, ⟨pos + 1 + byteLength v + 1, r⟩) := by
  have ha : v.all (· != '"') := all_eq_true.2 fun c hc => bne_iff_ne.2 fun h => hv (h ▸ hc)
  have hr : (Cursor.mk (pos + 1) (v ++ '"' :: r)).readWhile (· != '"') =
      (v, ⟨pos + 1 + byteLength v, '"' :: r⟩) := Cursor.readWhile_run _ ha rfl
  have hn : (Cursor.mk pos ('"' :: (v ++ '"' :: r))).next = ⟨pos + 1, v ++ '"' :: r⟩ := rfl
  have hq : (Cursor.mk pos ('"' :: (v ++ '"' :: r))).readQuoted? = some ((v, '"'), ⟨pos + 1 + byteLength v + 1, r⟩) := by
    simp only [Cursor.readQuoted?, Cursor.peek, head?_cons, hn, hr]
    rfl
  simp only [readValue, hq]

lemma head?_attributesText (as : List WrittenAttribute) (r : List Char) :
    (attributesText as ++ '>' :: r).head? = some (if as.isEmpty then '>' else ' ') := by
  cases as <;> rfl

lemma skipBlanks_attributesText (as : List WrittenAttribute) (pos : Nat) (r : List Char) :
    (Cursor.mk pos (attributesText as ++ '>' :: r)).skipBlanks.pos = (if as.isEmpty then pos else pos + 1) ∧
      (Cursor.mk pos (attributesText as ++ '>' :: r)).skipBlanks.consume? "=" = none := by
  cases as with
  | nil =>
    rw [attributesText, flatMap_nil, nil_append, Cursor.skipBlanks_of_head rfl]
    exact ⟨rfl, rfl⟩
  | cons a as =>
    obtain ⟨c, cs, hn, hc⟩ := a.exists_cons
    obtain ⟨more, hm⟩ : ∃ more, attributesText (a :: as) ++ '>' :: r = ' ' :: (a.name ++ more) := by
      simp [attributesText, WrittenAttribute.text]
    rw [hm, Cursor.skipBlanks_space (a.not_stop pos more).1]
    refine ⟨rfl, ?_⟩
    have hne : c ≠ '=' := by
      rintro rfl
      revert hc
      decide
    simp [Cursor.consume?, Cursor.startsWith, hn, isPrefixOf, Ne.symm hne]

lemma readAttributes_written (as : List WrittenAttribute) (pos : Nat) (r : List Char) :
    readAttributes ⟨pos, attributesText as ++ '>' :: r⟩ =
      (attributesAt pos as, ⟨pos + byteLength (attributesText as), '>' :: r⟩) := by
  induction as generalizing pos with
  | nil => exact readAttributes_stop (Cursor.skipBlanks_of_head rfl) rfl
  | cons a as ih =>
    have hbe : (attributesText as ++ '>' :: r).head?.any Cursor.isNameChar = false := by
      rw [head?_attributesText]
      cases as <;> rfl
    cases hva : a.value with
    | none =>
      have ht : attributesText (a :: as) ++ '>' :: r = ' ' :: (a.name ++ (attributesText as ++ '>' :: r)) := by
        simp [attributesText, WrittenAttribute.text, hva]
      obtain ⟨hb, hs⟩ := a.not_stop (pos + 1) (attributesText as ++ '>' :: r)
      obtain ⟨hp, ha⟩ := skipBlanks_attributesText as (pos + 1 + byteLength a.name) r
      rw [ht, readAttributes_alone (Cursor.skipBlanks_space hb) hs (a.readAttributeName? hbe) ha, ih]
      have hl : pos + byteLength (attributesText (a :: as)) =
          pos + 1 + byteLength a.name + byteLength (attributesText as) := by
        simp [attributesText, WrittenAttribute.text, hva, show ' '.utf8Size = 1 from rfl, add_assoc]
      simp only [attributesAt, hva, Cursor.spanFrom, hp, hl]
    | some v =>
      have ht : attributesText (a :: as) ++ '>' :: r =
          ' ' :: (a.name ++ '=' :: '"' :: (v ++ '"' :: (attributesText as ++ '>' :: r))) := by
        simp [attributesText, WrittenAttribute.text, hva]
      have hv : '"' ∉ v := a.value_plain v (by simp [hva])
      obtain ⟨hb, hs⟩ := a.not_stop (pos + 1)
        ('=' :: '"' :: (v ++ '"' :: (attributesText as ++ '>' :: r)))
      have ha : (Cursor.mk (pos + 1 + byteLength a.name)
          ('=' :: '"' :: (v ++ '"' :: (attributesText as ++ '>' :: r)))).skipBlanks.consume? "=" =
            some ⟨pos + 1 + byteLength a.name + 1, '"' :: (v ++ '"' :: (attributesText as ++ '>' :: r))⟩ := by
        rw [Cursor.skipBlanks_of_head rfl]
        rfl
      have hr := readValue_quoted (pos + 1 + byteLength a.name + 1)
        (attributesText as ++ '>' :: r) hv
      rw [← Cursor.skipBlanks_of_head rfl] at hr
      rw [ht, readAttributes_assigned (Cursor.skipBlanks_space hb) hs (a.readAttributeName? rfl) ha hr, ih]
      have hl : pos + byteLength (attributesText (a :: as)) =
          pos + 1 + byteLength a.name + 1 + 1 + byteLength v + 1 + byteLength (attributesText as) := by
        simp [attributesText, WrittenAttribute.text, hva, show ' '.utf8Size = 1 from rfl,
          show '='.utf8Size = 1 from rfl, show '"'.utf8Size = 1 from rfl]
        omega
      simp only [attributesAt, hva, Cursor.spanFrom, hl]

/-- A section as it is written: the names in its tags, its attributes and its content. -/
structure Element (kind : SectionKind) where
  openName : List Char
  closeName : List Char
  attributes : List WrittenAttribute
  content : List Char
  open_spelled : equalIgnoringCase openName kind.tagName.toList = true
  close_spelled : equalIgnoringCase closeName kind.tagName.toList = true

namespace Element

variable {kind : SectionKind} (e : Element kind)

def openingTag : List Char := '<' :: (e.openName ++ (attributesText e.attributes ++ ['>']))

def closingTag : List Char := '<' :: '/' :: (e.closeName ++ ['>'])

def text : List Char := e.openingTag ++ (e.content ++ e.closingTag)

/-- The section that is found where the element stands, `pos` being its offset. -/
def blockAt (pos : Nat) : Block where
  span := ⟨pos, pos + byteLength e.text⟩
  contentSpan := ⟨pos + byteLength e.openingTag, pos + byteLength e.openingTag + byteLength e.content⟩
  content := String.ofList e.content
  attributes := attributesAt (pos + 1 + byteLength e.openName) e.attributes

/-- The content ends at the element's own closing tag, `after` being the text behind it: the tags in a template are
balanced, and in a script or a style no other closing tag stands. -/
def Closes (after : List Char) : Prop :=
  match kind with
  | .template => Nests kind.tagName.toList (e.closingTag ++ after) 0 e.content
  | .script | .style => tagCount .closing kind.tagName.toList (e.closingTag ++ after) e.content = 0

lemma tagAt_openingTag (r : List Char) : tagAt .opening kind.tagName.toList (e.openingTag ++ r) := by
  have hh := head?_attributesText e.attributes r
  obtain ⟨cs, hc⟩ := head?_eq_some_iff.1 hh
  have ht : e.openingTag ++ r = Mark.opening.text ++ (e.openName ++ (if e.attributes.isEmpty then '>' else ' ') :: cs) := by
    rw [← hc]
    simp [openingTag, Mark.text]
  rw [ht]
  refine tagAt_spelled cs e.open_spelled ?_
  split <;> decide

lemma tagAt_closingTag (r : List Char) : tagAt .closing kind.tagName.toList (e.closingTag ++ r) := by
  have ht : e.closingTag ++ r = Mark.closing.text ++ (e.closeName ++ '>' :: r) := by
    simp [closingTag, Mark.text]
  rw [ht]
  exact tagAt_spelled r e.close_spelled (by decide)

lemma readTagName? (pos : Nat) (r : List Char) :
    (Cursor.mk pos (e.openName ++ (attributesText e.attributes ++ '>' :: r))).readTagName? =
      some (e.openName, ⟨pos + byteLength e.openName, attributesText e.attributes ++ '>' :: r⟩) := by
  have hl := isAlpha_of_equalIgnoringCase e.open_spelled (isPlainName_tagName kind)
  have ha : e.openName.all (fun a => a.isAlphanum || a == '-' || a == '_') :=
    all_eq_true.2 fun c hc => by simp [Char.isAlphanum, hl c hc]
  have hr : (attributesText e.attributes ++ '>' :: r).head?.any
      (fun a => a.isAlphanum || a == '-' || a == '_') = false := by
    rw [head?_attributesText]
    cases e.attributes <;> rfl
  have hp : (Cursor.mk pos (e.openName ++ (attributesText e.attributes ++ '>' :: r))).peek.any
      Char.isAlpha := by
    cases hn : e.openName with
    | nil =>
      have hle := length_eq_of_equalIgnoringCase e.open_spelled
      rw [hn] at hle
      cases kind <;> cases hle
    | cons c cs => simpa [Cursor.peek] using hl c (by simp [hn])
  rw [Cursor.readTagName?, if_pos hp, Cursor.readWhile_run pos ha hr]

lemma readContent (h : e.Closes after) (pos : Nat) : (match kind with
      | .template => (Cursor.mk pos (e.content ++ (e.closingTag ++ after))).readNestedContent kind.tagName
      | .script | .style =>
        (Cursor.mk pos (e.content ++ (e.closingTag ++ after))).readContent kind.tagName) =
      (some e.content, ⟨pos + byteLength e.content, e.closingTag ++ after⟩) := by
  have hs : (Cursor.mk pos (e.content ++ (e.closingTag ++ after))).skip e.content.length =
      ⟨pos + byteLength e.content, e.closingTag ++ after⟩ := by
    simp [Cursor.skip]
  have ht := e.tagAt_closingTag after
  have hr : tagCount .closing kind.tagName.toList (e.closingTag ++ after) e.content = 0 →
      (Cursor.mk pos (e.content ++ (e.closingTag ++ after))).readContent kind.tagName =
        (some e.content, ⟨pos + byteLength e.content, e.closingTag ++ after⟩) := by
    intro hc
    have hm : (e.closingTag ++ after).isEmpty = false := rfl
    simp only [Cursor.readContent, Cursor.readUntil, extentUntil_tagAt hc ht, hs,
      Cursor.atEnd, hm, false_eq_true, if_false, take_left]
  cases kind with
  | script => exact hr h
  | style => exact hr h
  | template =>
    have he := nestedExtent_of_nests (isPlainName_tagName .template) ht h
    simp [Cursor.readNestedContent_eq, he, hs]

lemma consumeClosingTag? (pos : Nat) (after : List Char) :
    (Cursor.mk pos (e.closingTag ++ after)).consumeClosingTag? kind.tagName =
      some ⟨pos + byteLength e.closingTag, after⟩ := by
  have ht : e.closingTag ++ after = ('<' :: '/' :: e.closeName) ++ '>' :: after := by simp [closingTag]
  have hs : (Cursor.mk pos (e.closingTag ++ after)).jump (2 + byteLength kind.tagName.toList) =
      ⟨pos + byteLength ('<' :: '/' :: e.closeName), '>' :: after⟩ := by
    have hb : 2 + byteLength kind.tagName.toList = byteLength ('<' :: '/' :: e.closeName) := by
      rw [← byteLength_eq_of_equalIgnoringCase e.close_spelled, byteLength_cons, byteLength_cons, ← add_assoc]
      rfl
    rw [hb, Cursor.jump, ht, dropBytes_byteLength]
  have hr : (Cursor.mk (pos + byteLength ('<' :: '/' :: e.closeName)) ('>' :: after)).readUntilText ">" =
      ([], ⟨pos + byteLength ('<' :: '/' :: e.closeName), '>' :: after⟩) := by
    rfl
  rw [Cursor.consumeClosingTag?, Cursor.atTag, if_pos (e.tagAt_closingTag after), hs, hr]
  simp [Cursor.consume?_angle, closingTag, show '>'.utf8Size = 1 from rfl, add_assoc]

end Element

lemma readSection_opened {start : Nat} {opening afterName stop ms after closed : Cursor}
    {name ct : List Char} {attributes : List Attribute} (ho : (Cursor.start source start).skip 1 = opening)
    (hn : opening.readTagName? = some (name, afterName))
    (ha : readAttributes afterName = (attributes, stop)) (hs : stop.skipBlanks.consume? "/>" = none)
    (hin : stop.skipBlanks.consume? ">" = some ms) (hc : (match kind with
      | .template => ms.readNestedContent kind.tagName
      | .script | .style => ms.readContent kind.tagName) = (some ct, after))
    (hcl : after.consumeClosingTag? kind.tagName = some closed) :
    readSection source kind start = .ok ⟨closed.spanFrom start, after.spanFrom ms.pos, String.ofList ct, attributes⟩ := by
  unfold readSection
  cases kind <;> simp only at hc <;>
    simp only [ho, hn, map_some, getD_some, ha, hs, hin, hc, hcl]

lemma readSection_element (e : Element kind) (hs : source.toList = pre ++ (e.text ++ after)) (h : e.Closes after) :
    readSection source kind (byteLength pre) = .ok (e.blockAt (byteLength pre)) := by
  have hsa : (Cursor.start source (byteLength pre)).skip 1 =
      ⟨byteLength pre + 1, e.openName ++ (attributesText e.attributes ++
        '>' :: (e.content ++ (e.closingTag ++ after)))⟩ := by
    rw [Cursor.start, hs, dropBytes_byteLength]
    simp [Cursor.skip, Element.text, Element.openingTag, show '<'.utf8Size = 1 from rfl]
  let stop : Cursor := ⟨byteLength pre + 1 + byteLength e.openName + byteLength (attributesText e.attributes),
      '>' :: (e.content ++ (e.closingTag ++ after))⟩
  have hst : stop.skipBlanks = stop := Cursor.skipBlanks_of_head rfl
  have hin : stop.skipBlanks.consume? ">" = some ⟨stop.pos + 1, e.content ++ (e.closingTag ++ after)⟩ := by
    rw [hst, Cursor.consume?_angle]
  rw [readSection_opened hsa (e.readTagName? _ _) (readAttributes_written _ _ _)
    (by rw [hst]; rfl) hin (e.readContent h _) (e.consumeClosingTag? _ _)]
  have ho : byteLength e.openingTag = 1 + byteLength e.openName + byteLength (attributesText e.attributes) + 1 := by
    simp [Element.openingTag, show '<'.utf8Size = 1 from rfl, show '>'.utf8Size = 1 from rfl, add_assoc]
  simp [Element.blockAt, Cursor.spanFrom, Element.text, ho, stop, add_assoc]

/-- The name of an attribute and the text of its value. -/
def Attribute.pair (a : Attribute) : String × Option String := (a.name, a.value.map AttributeValue.text)

@[inherit_doc Attribute.pair]
def WrittenAttribute.pair (a : WrittenAttribute) : String × Option String :=
  (String.ofList a.name, a.value.map String.ofList)

lemma map_pair_attributesAt (pos : Nat) (as : List WrittenAttribute) :
    (attributesAt pos as).map Attribute.pair = as.map WrittenAttribute.pair := by
  induction as generalizing pos with
  | nil => rfl
  | cons a as ih =>
    rw [attributesAt]
    split <;> simp [Attribute.pair, WrittenAttribute.pair, *]

lemma slice?_attributesAt (as : List WrittenAttribute) : ∀ a ∈ attributesAt (byteLength pre) as, ∀ v ∈ a.value,
      v.span.slice? (String.ofList (pre ++ (attributesText as ++ after))) = some v.text := by
  induction as generalizing pre with
  | nil => simp [attributesAt]
  | cons a as ih =>
    have hs : ' '.utf8Size = 1 := rfl
    have ha : '='.utf8Size = 1 := rfl
    have hq : '"'.utf8Size = 1 := rfl
    cases hva : a.value with
    | none =>
      have hp : byteLength pre + 1 + byteLength a.name = byteLength (pre ++ ' ' :: a.name) := by
        simp [hs, Nat.add_assoc]
      have ht : pre ++ (attributesText (a :: as) ++ after) = (pre ++ ' ' :: a.name) ++ (attributesText as ++ after) := by
        simp [attributesText, WrittenAttribute.text, hva]
      rw [attributesAt, hva, hp, ht]
      intro b hb v hv
      rcases mem_cons.1 hb with rfl | hb
      · cases hv
      · exact ih b hb v hv
    | some w =>
      have hp : byteLength pre + 1 + byteLength a.name + 2 = byteLength (pre ++ ' ' :: (a.name ++ ['=', '"'])) := by
        simp [hs, ha, hq, add_assoc]
      have hn : byteLength pre + 1 + byteLength a.name + 2 + byteLength w + 1 =
          byteLength (pre ++ ' ' :: (a.name ++ '=' :: '"' :: (w ++ ['"']))) := by
        simp [hs, ha, hq]
        omega
      have ht : pre ++ (attributesText (a :: as) ++ after) =
          (pre ++ ' ' :: (a.name ++ '=' :: '"' :: (w ++ ['"']))) ++ (attributesText as ++ after) := by
        simp [attributesText, WrittenAttribute.text, hva]
      have hm : pre ++ (attributesText (a :: as) ++ after) =
          (pre ++ ' ' :: (a.name ++ ['=', '"'])) ++ (w ++ '"' :: (attributesText as ++ after)) := by
        simp [attributesText, WrittenAttribute.text, hva]
      rw [attributesAt, hva]
      dsimp only
      rw [hn]
      intro b hb v hv
      rcases mem_cons.1 hb with rfl | hb
      · cases hv
        rw [hm, Span.slice?, toList_ofList, hp, slice?_middle]
        rfl
      · rw [ht]
        exact ih b hb v hv

def Element.value? {kind : SectionKind} (e : Element kind) (name : String) : Option (List Char) :=
  (e.attributes.find? fun a => equalIgnoringCase a.name name.toList).bind WrittenAttribute.value

def settingOf (value : Option String) : Option String :=
  (value.map trim).filter fun s => !s.isEmpty

lemma pair_attribute? (e : Element kind) (pos : Nat) (name : String) :
    ((e.blockAt pos).attribute? name).map Attribute.pair =
      (e.attributes.find? fun a => equalIgnoringCase a.name name.toList).map WrittenAttribute.pair := by
  have hf := congrArg (find? fun p : String × Option String =>
    equalIgnoringCase p.1.toList name.toList)
    (map_pair_attributesAt (pos + 1 + byteLength e.openName) e.attributes)
  simp only [find?_map] at hf
  simpa [Block.attribute?, Element.blockAt, comp_def, Attribute.pair, WrittenAttribute.pair] using hf

lemma text_value_attribute? (e : Element kind) (pos : Nat) (name : String) :
    (((e.blockAt pos).attribute? name).bind Attribute.value).map AttributeValue.text =
      (e.value? name).map String.ofList := by
  have hp := congrArg (Option.bind · Prod.snd) (pair_attribute? e pos name)
  simpa [Option.bind_map, Option.map_bind, comp_def, Attribute.pair, WrittenAttribute.pair, Element.value?] using hp

lemma Block.lang?_eq (b : Block) :
    b.lang? = settingOf (((b.attribute? "lang").bind Attribute.value).map AttributeValue.text) := by
  unfold Block.lang? settingOf
  cases b.attribute? "lang" with
  | none => rfl
  | some a =>
    cases ha : a.value with
    | none => simp [ha]
    | some v => by_cases hv : trim v.text = "" <;> simp [ha, hv, guard, Option.filter]

lemma Block.map_path_reference? (b : Block) : b.reference?.map Reference.path =
      settingOf (((b.attribute? "src").bind Attribute.value).map AttributeValue.text) := by
  unfold Block.reference? settingOf
  cases b.attribute? "src" with
  | none => rfl
  | some a =>
    cases ha : a.value with
    | none => simp [ha]
    | some v => by_cases hv : trim v.text = "" <;> simp [ha, hv, guard, Option.filter]

/-- The element renders into a shadow root: nothing says otherwise. -/
def Element.shadow {kind : SectionKind} (e : Element kind) : Bool :=
  match e.attributes.find? fun a => equalIgnoringCase a.name "no-shadow".toList with
  | none => true
  | some a => a.value.any fun v => equalIgnoringCase (trimList v) "false".toList

lemma Element.usesShadow_blockAt (e : Element kind) (pos : Nat) : (e.blockAt pos).usesShadow = e.shadow := by
  have hp := pair_attribute? e pos "no-shadow"
  unfold Block.usesShadow Element.shadow
  cases hf : (e.blockAt pos).attribute? "no-shadow" with
  | none =>
    rw [hf] at hp
    rw [Option.map_eq_none_iff.1 hp.symm]
  | some a =>
    rw [hf] at hp
    obtain ⟨w, hw, hp⟩ := map_eq_some_iff.1 hp.symm
    rw [hw]
    obtain ⟨-, hv⟩ := Prod.mk.inj hp
    have ha := congrArg (Option.any fun s : String =>
      equalIgnoringCase (trimList s.toList) "false".toList) hv
    simpa [Option.any_map, comp_def] using ha.symm

/-- What is found where an element stands, `before` being the text in front of it. -/
structure Element.FoundIn {kind : SectionKind} (e : Element kind) (source : String)
    (before : List Char) (b : Block) (lang : Option String) (reference : Option Reference) : Prop where
  span : b.span = ⟨byteLength before, byteLength before + byteLength e.text⟩
  contentSpan : b.contentSpan = ⟨byteLength (before ++ e.openingTag),
    byteLength (before ++ e.openingTag) + byteLength e.content⟩
  content : b.content = String.ofList e.content
  attributes : b.attributes.map Attribute.pair = e.attributes.map WrittenAttribute.pair
  values : ∀ a ∈ b.attributes, ∀ v ∈ a.value, v.span.slice? source = some v.text
  lang : lang = settingOf ((e.value? "lang").map String.ofList)
  reference : reference.map Reference.path = settingOf ((e.value? "src").map String.ofList)

lemma Element.foundIn_blockAt (e : Element kind) (hs : source.toList = pre ++ (e.text ++ after)) :
    e.FoundIn source pre (e.blockAt (byteLength pre)) (e.blockAt (byteLength pre)).lang?
      (e.blockAt (byteLength pre)).reference? where
  span := rfl
  contentSpan := by simp [Element.blockAt]
  content := rfl
  attributes := map_pair_attributesAt _ _
  values := by
    have hp : byteLength pre + 1 + byteLength e.openName = byteLength (pre ++ '<' :: e.openName) := by
      simp [show '<'.utf8Size = 1 from rfl, add_assoc]
    have ht : source = String.ofList ((pre ++ '<' :: e.openName) ++
        (attributesText e.attributes ++ '>' :: (e.content ++ (e.closingTag ++ after)))) := by
      rw [← ofList_toList (s := source), hs]
      simp [Element.text, Element.openingTag]
    rw [Element.blockAt, hp, ht]
    exact slice?_attributesAt e.attributes
  lang := by rw [Block.lang?_eq, text_value_attribute?]
  reference := by rw [Block.map_path_reference?, text_value_attribute?]

/-- A document put together from its sections, with other text around them. -/
structure Assembly where
  leading : List Char
  template : Element .template
  between : List Char
  script : Element .script
  style : Option (List Char × Element .style)
  trailing : List Char
  leading_plain : '<' ∉ leading

namespace Assembly

def afterScript (a : Assembly) : List Char :=
  match a.style with
  | none => a.trailing
  | some (gap, style) => gap ++ (style.text ++ a.trailing)

def afterTemplate (a : Assembly) : List Char := a.between ++ (a.script.text ++ a.afterScript)

def beforeScript (a : Assembly) : List Char := a.leading ++ (a.template.text ++ a.between)

def text (a : Assembly) : String :=
  String.ofList (a.leading ++ (a.template.text ++ a.afterTemplate))

/-- Nothing in the document is taken for a tag of its sections but these themselves. -/
structure Unambiguous (a : Assembly) : Prop where
  template_closes : a.template.Closes a.afterTemplate
  script_closes : a.script.Closes a.afterScript
  style_closes : ∀ s ∈ a.style, s.2.Closes a.trailing
  /-- Behind the angle that opens the script there is no other script. -/
  script_last : tagCount .opening "script".toList [] (a.script.text ++ a.afterScript).tail = 0
  /-- Behind the angle that opens the style, if there is one, there is no other style. -/
  style_last : match a.style with
    | none => tagCount .opening "style".toList [] a.text.toList = 0
    | some (_, style) => tagCount .opening "style".toList [] (style.text ++ a.trailing).tail = 0

/-- The template and the script are not blank, and the script has a selector. -/
structure Complete (a : Assembly) : Prop where
  template_text : ∃ c ∈ a.template.content, isBlank c = false
  script_text : ∃ c ∈ a.script.content, isBlank c = false
  selector : ∃ v ∈ a.script.value? "selector", ∃ c ∈ v, isBlank c = false

/-- The sections of an assembly as they are found in its text. -/
structure FoundAs (a : Assembly) (doc : Document) : Prop where
  template : a.template.FoundIn a.text a.leading doc.template.block doc.template.lang
    doc.template.reference
  script : a.script.FoundIn a.text a.beforeScript doc.script.block doc.script.lang
    doc.script.reference
  style : match a.style, doc.style with
    | none, none => True
    | some (gap, style), some found =>
      style.FoundIn a.text (a.beforeScript ++ (a.script.text ++ gap)) found.block found.lang
        found.reference
    | _, _ => False
  selector : (a.script.value? "selector").map (fun v => trim (String.ofList v)) = some doc.script.selector
  selectorSpan : doc.script.selectorSpan.slice? a.text = (a.script.value? "selector").map String.ofList
  shadow : doc.script.shadow = a.script.shadow

lemma toList_text (a : Assembly) : a.text.toList = a.leading ++ (a.template.text ++ a.afterTemplate) :=
  toList_ofList

lemma toList_text_script (a : Assembly) : a.text.toList = a.beforeScript ++ (a.script.text ++ a.afterScript) := by
  simp [toList_text, beforeScript, afterTemplate]

lemma toList_text_style {a : Assembly} {g : List Char} {style : Element .style} (h : a.style = some (g, style)) :
    a.text.toList = (a.beforeScript ++ (a.script.text ++ g)) ++ (style.text ++ a.trailing) := by
  simp [toList_text_script, afterScript, h]

lemma anchor?_template (a : Assembly) : anchor? a.text .template = some (byteLength a.leading) := by
  have ht : tagAt .opening SectionKind.template.tagName.toList
      (a.template.text ++ a.afterTemplate) := by
    rw [Element.text, append_assoc]
    exact a.template.tagAt_openingTag _
  rw [anchor?, openingTags, toList_text, ← zero_add (byteLength a.leading)]
  exact head?_openingTagsFrom (tagCount_eq_zero a.leading_plain) ht

lemma getLast?_openingTags (e : Element kind) (hs : source.toList = pre ++ (e.text ++ after))
    (hl : tagCount .opening kind.tagName.toList [] (e.text ++ after).tail = 0) :
    (openingTags kind.tagName source).getLast? = some (byteLength pre) := by
  have hta := e.tagAt_openingTag (e.content ++ e.closingTag ++ after)
  have ht : e.text ++ after = '<' :: (e.text ++ after).tail := rfl
  rw [openingTags, hs, ht, getLast?_openingTagsFrom ?_ hl, zero_add]
  rw [← ht]
  simpa [Element.text] using hta

lemma readSection_style {a : Assembly} (h : a.Unambiguous) : (match anchor? a.text .style with
      | some start => some <$> readSection a.text .style start
      | none => pure none) =
      .ok (a.style.map fun s => s.2.blockAt (byteLength (a.beforeScript ++ (a.script.text ++ s.1)))) := by
  have hl := h.style_last
  cases hs : a.style with
  | none =>
    rw [hs] at hl
    have ha : anchor? a.text .style = none := by
      simp only [anchor?, openingTags]
      exact congrArg getLast? (openingTagsFrom_eq_nil hl)
    rw [ha]
    rfl
  | some s =>
    obtain ⟨g, style⟩ := s
    rw [hs] at hl
    have ht := toList_text_style hs
    have ha : anchor? a.text .style = some _ := getLast?_openingTags style ht hl
    rw [ha]
    dsimp only
    rw [readSection_element style ht (h.style_closes _ hs)]
    rfl

end Assembly

lemma requireContent_blockAt (e : Element kind) (pos : Nat) (h : ∃ c ∈ e.content, isBlank c = false) :
    requireContent kind (e.blockAt pos) = .ok () := by
  obtain ⟨c, hc, hb⟩ := h
  have hne : trimList e.content ≠ [] := fun hn => by
    simp [trimList_eq_nil.1 hn c hc] at hb
  have ht : (e.blockAt pos).inlineText ≠ "" := by
    simpa [Block.inlineText, Element.blockAt, trim] using hne
  simp [requireContent, ht]

lemma requireSelector_blockAt (e : Element kind) (pos : Nat) {v : List Char}
    (hv : e.value? "selector" = some v) (h : ∃ c ∈ v, isBlank c = false) :
    ∃ a ∈ (e.blockAt pos).attributes, ∃ value ∈ a.value, value.text = String.ofList v ∧
      requireSelector (e.blockAt pos) = .ok value := by
  obtain ⟨c, hc, hb⟩ := h
  have hne : trimList v ≠ [] := fun hn => by
    simp [trimList_eq_nil.1 hn c hc] at hb
  have hf := text_value_attribute? e pos "selector"
  rw [hv] at hf
  obtain ⟨value, hbi, ht⟩ := map_eq_some_iff.1 hf
  obtain ⟨a, ha, hav⟩ := bind_eq_some_iff.1 hbi
  refine ⟨a, mem_of_find?_eq_some ha, value, hav, ht, ?_⟩
  have htr : trim value.text ≠ "" := by
    simpa [ht, trim] using hne
  simp [requireSelector, ha, hav, htr]

lemma parseDocument_of_sections {scriptStart templateStart : Nat} {script template : Block} {style : Option Block}
    {selector : AttributeValue} (hscriptStart : requireAnchor source .script = .ok scriptStart)
    (htemplateStart : requireAnchor source .template = .ok templateStart)
    (hsc : readSection source .script scriptStart = .ok script)
    (ht : readSection source .template templateStart = .ok template) (hst : (match anchor? source .style with
      | some start => some <$> readSection source .style start
      | none => pure none) = .ok style) (hscriptText : requireContent .script script = .ok ())
    (htemplateText : requireContent .template template = .ok ()) (hs : requireSelector script = .ok selector) :
    parseDocument source = .ok ⟨template.toSection, ⟨script, script.lang?, script.reference?,
      trim selector.text, selector.span, script.usesShadow⟩, style.map Block.toSection⟩ := by
  refine bind_eq_ok.2 ⟨_, hscriptStart, bind_eq_ok.2 ⟨_, htemplateStart, bind_eq_ok.2 ⟨_, hsc, bind_eq_ok.2 ⟨_, ht, ?_⟩⟩⟩⟩
  cases ha : anchor? source .style with
  | none | some start =>
    rw [ha] at hst
    exact bind_eq_ok.2 ⟨_, hst, bind_eq_ok.2 ⟨_, hscriptText, bind_eq_ok.2 ⟨_, htemplateText, bind_eq_ok.2 ⟨_, hs, rfl⟩⟩⟩⟩

/-- **Reading a document inverts putting it together**: if nothing else in it is taken for one of their tags, the sections
are found where they stand with the attributes and the content they were given. -/
theorem parseDocument_assembly (a : Assembly) (h : a.Unambiguous) (hcomplete : a.Complete) :
    ∃ doc, parseDocument a.text = .ok doc ∧ a.FoundAs doc := by
  obtain ⟨v, hv, hselector⟩ := hcomplete.selector
  obtain ⟨named, hnamed, value, hvalue, htext, hrequire⟩ :=
    requireSelector_blockAt a.script (byteLength a.beforeScript) hv hselector
  have hscript : requireAnchor a.text .script = .ok (byteLength a.beforeScript) := by
    have hanchor : anchor? a.text .script = some (byteLength a.beforeScript) :=
      Assembly.getLast?_openingTags a.script a.toList_text_script h.script_last
    rw [requireAnchor, hanchor]
  have htemplate : requireAnchor a.text .template = .ok (byteLength a.leading) := by
    rw [requireAnchor, a.anchor?_template]
  have hfound := a.script.foundIn_blockAt a.toList_text_script
  refine ⟨_, parseDocument_of_sections hscript htemplate (readSection_element a.script a.toList_text_script h.script_closes)
    (readSection_element a.template a.toList_text h.template_closes)
    (Assembly.readSection_style h)
    (requireContent_blockAt a.script _ hcomplete.script_text)
    (requireContent_blockAt a.template _ hcomplete.template_text) hrequire, ?_⟩
  refine ⟨a.template.foundIn_blockAt a.toList_text, hfound, ?_, ?_, ?_, ?_⟩
  · cases hstyle : a.style with
    | none => trivial
    | some s => exact s.2.foundIn_blockAt (Assembly.toList_text_style hstyle)
  · simp [Option.mem_def.1 hv, htext]
  · rw [Option.mem_def.1 hv, map_some, ← htext]
    exact hfound.values named hnamed value hvalue
  · exact a.script.usesShadow_blockAt _

lemma plain_of_all {name : List Char}
    (h : name.all (fun c => !isBlank c && !(['=', '>', '/', '"', '\'', '<'].contains c))) :
    ∀ c ∈ name, isBlank c = false ∧ c ∉ ['=', '>', '/', '"', '\'', '<'] := by
  intro c hc
  have hb := all_eq_true.1 h c hc
  rw [and_eq_true, not_eq_true', not_eq_true'] at hb
  refine ⟨hb.1, fun hm => ?_⟩
  rw [contains_iff_mem.2 hm] at hb
  cases hb.2

def nestedAssembly : Assembly where
  leading := ['\n']
  template :=
    { openName := "TEMPLATE".toList
      closeName := "Template".toList
      attributes := [⟨"a".toList, none, by decide, plain_of_all (by decide), by simp⟩,
        ⟨"b".toList, some "</template>".toList, by decide, plain_of_all (by decide), by simp⟩]
      content := "<template >a</template>".toList
      open_spelled := by decide
      close_spelled := by decide }
  between := [' ']
  script :=
    { openName := "script".toList
      closeName := "SCRIPT".toList
      attributes := [⟨"Selector".toList, some " x-y ".toList, by decide, plain_of_all (by decide), by simp⟩]
      content := ['f']
      open_spelled := by decide
      close_spelled := by decide }
  style := some ([],
    { openName := "style".toList
      closeName := "style".toList
      attributes := []
      content := []
      open_spelled := by decide
      close_spelled := by decide })
  trailing := []
  leading_plain := by decide

lemma nestedAssembly_unambiguous : nestedAssembly.Unambiguous where
  template_closes := ⟨by decide +kernel, by decide +kernel⟩
  script_closes := by
    change tagCount .closing "script".toList _ ['f'] = 0
    decide +kernel
  style_closes := by
    intro s hs
    cases hs
    rfl
  script_last := by decide +kernel
  style_last := by
    change tagCount .opening "style".toList [] "style></style>".toList = 0
    decide +kernel

theorem parseDocument_assembly_nested :
    nestedAssembly.text = "\n<TEMPLATE a b=\"</template>\"><template >a</template></Template> " ++
      "<script Selector=\" x-y \">f</SCRIPT><style></style>" ∧
    nestedAssembly.Unambiguous ∧ nestedAssembly.Complete ∧
    ∃ doc, parseDocument nestedAssembly.text = .ok doc ∧ nestedAssembly.FoundAs doc := by
  have hcomplete : nestedAssembly.Complete :=
    ⟨⟨'<', by decide, by decide⟩, ⟨'f', by decide, by decide⟩, _, rfl, 'x', by decide, by decide⟩
  exact ⟨by decide +kernel, nestedAssembly_unambiguous, hcomplete,
    parseDocument_assembly _ nestedAssembly_unambiguous hcomplete⟩

end CustomElement.Markup
