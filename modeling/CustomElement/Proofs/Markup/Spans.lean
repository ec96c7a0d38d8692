import CustomElement.Proofs.Markup.TagCount
import CustomElement.Proofs.Outcome

/-!
# Spans of a document

Every operation of a cursor passes a text (`Cursor.Passes`), and what lies between two cursors of a document is the
text that was passed (`Cursor.Passes.slice?`). So every span that reading gives points at what it is the span of
(`parseDocument_pointsInto`).
-/

namespace CustomElement.Markup

open List Text

variable {b : Block} {c d : Cursor} {source : String} {name : String} {kind : SectionKind}

namespace Cursor

def In (c : Cursor) (source : String) : Prop :=
  ∃ before, source.toList = before ++ c.rest ∧ byteLength before = c.pos

/-- The second cursor is reached from the first one over a text. -/
structure Passes (c : Cursor) (text : List Char) (d : Cursor) : Prop where
  rest : c.rest = text ++ d.rest
  pos : d.pos = c.pos + byteLength text

namespace Passes

variable {e : Cursor} {text more : List Char}

lemma refl (c : Cursor) : c.Passes [] c := ⟨rfl, rfl⟩

lemma trans (h : c.Passes text d) (h' : d.Passes more e) : c.Passes (text ++ more) e :=
  ⟨by rw [h.rest, h'.rest, append_assoc], by rw [h'.pos, h.pos, byteLength_append, add_assoc]⟩

lemma le (h : c.Passes text d) : c.pos ≤ d.pos := by
  rw [h.pos]
  exact Nat.le_add_right _ _

lemma moves (h : c.Passes text d) (hc : c.In source) : d.In source := by
  obtain ⟨pre, hs, hb⟩ := hc
  exact ⟨pre ++ text, by rw [hs, h.rest, append_assoc], by rw [byteLength_append, hb, h.pos]⟩

lemma slice? (h : c.Passes text d) (hc : c.In source) :
    (Span.mk c.pos d.pos).slice? source = some (String.ofList text) := by
  obtain ⟨pre, hs, hb⟩ := hc
  rw [Span.slice?, hs, h.rest, h.pos, ← hb, slice?_middle, map_some]

end Passes

lemma passes_skip (c : Cursor) (n : Nat) : c.Passes (c.rest.take n) (c.skip n) :=
  ⟨(take_append_drop n c.rest).symm, rfl⟩

lemma passes_readWhile (c : Cursor) (p : Char → Bool) : c.Passes (c.readWhile p).1 (c.readWhile p).2 :=
  ⟨takeWhile_append_dropWhile.symm, rfl⟩

lemma passes_skipBlanks (c : Cursor) : c.Passes (c.rest.takeWhile isBlank) c.skipBlanks :=
  c.passes_readWhile isBlank

lemma passes_consume? {text : String} (h : c.consume? text = some d) : c.Passes text.toList d := by
  unfold consume? at h
  split at h
  · rename_i hs
    cases h
    obtain ⟨r, hr⟩ := isPrefixOf_iff_prefix.1 hs
    exact ⟨by rw [jump, ← hr, dropBytes_byteLength], rfl⟩
  · cases h

lemma exists_passes_consume?_getD (c : Cursor) (text : String) : ∃ t, c.Passes t ((c.consume? text).getD c) := by
  cases h : c.consume? text with
  | none => exact ⟨[], .refl c⟩
  | some d => exact ⟨_, passes_consume? h⟩

lemma passes_readUntil (c : Cursor) (stop : List Char → Bool) : c.Passes (c.readUntil stop).1 (c.readUntil stop).2 :=
  c.passes_skip _

lemma exists_passes_consumeClosingTag? (h : c.consumeClosingTag? name = some d) : ∃ text, c.Passes text d := by
  unfold consumeClosingTag? at h
  split at h
  · rename_i ht
    have hj : c.jump (2 + byteLength name.toList) = c.skip (2 + name.length) := jump_tag ht
    rw [hj] at h
    cases h
    obtain ⟨t, hp⟩ := exists_passes_consume?_getD ((c.skip (2 + name.length)).readUntilText ">").2 ">"
    exact ⟨_, ((c.passes_skip _).trans (passes_readUntil _ _)).trans hp⟩
  · cases h

lemma passes_readAttributeName? {name : List Char} (h : c.readAttributeName? = some (name, d)) : c.Passes name d := by
  unfold readAttributeName? at h
  split at h
  · have hr := some.inj h
    have hp := c.passes_readWhile isNameChar
    rwa [hr] at hp
  · cases h

lemma exists_passes_readQuoted? {text : List Char} {q : Char} (h : c.readQuoted? = some ((text, q), d)) :
    c.next.pos = c.pos + 1 ∧ ∃ e aft, c.next.Passes text e ∧ e.Passes aft d := by
  unfold readQuoted? at h
  split at h
  · rename_i fst hp
    split at h
    · rename_i hq
      obtain ⟨ht, rfl⟩ := Prod.mk.inj (some.inj h)
      obtain ⟨rfl, rfl⟩ := Prod.mk.inj ht
      refine ⟨?_, _, _, c.next.passes_readWhile (· != fst), passes_skip _ 1⟩
      obtain ⟨r, hr⟩ := head?_eq_some_iff.1 hp
      rcases Bool.or_eq_true_iff.1 hq with hf | hf <;>
        simp [next, skip, hr, beq_iff_eq.1 hf, Char.utf8Size]
    · cases h
  · cases h

lemma passes_readContent {ct : List Char} (h : c.readContent name = (some ct, d)) : c.Passes ct d := by
  unfold readContent at h
  obtain ⟨hc, rfl⟩ := Prod.mk.inj h
  split at hc
  · cases hc
  · cases hc
    exact passes_readUntil _ _

lemma passes_readNestedContent {ct : List Char} (h : c.readNestedContent name = (some ct, d)) : c.Passes ct d := by
  rw [readNestedContent_eq] at h
  cases hn : nestedExtent name.toList 0 0 c.rest with
  | none => simp [hn] at h
  | some n =>
    obtain ⟨rfl, rfl⟩ : c.rest.take n = ct ∧ c.skip n = d := by simpa [hn] using h
    exact c.passes_skip n

lemma in_start {pre r : List Char} (h : source.toList = pre ++ r) : (start source (byteLength pre)).In source :=
  ⟨pre, by rw [start, h, dropBytes_byteLength], rfl⟩

end Cursor

/-- The span of an attribute starts with its name, and that of its value holds the value. -/
structure Attribute.PointsInto (a : Attribute) (source : String) : Prop where
  name : ∃ behind, a.span.slice? source = some (a.name ++ behind)
  value : ∀ v, a.value = some v → v.span.slice? source = some v.text ∧
    a.span.start + byteLength a.name.toList < v.span.start ∧ v.span.stop ≤ a.span.stop

/-- The attributes point into the document, in order between two offsets. -/
structure AttributesInOrder (source : String) (start stop : Nat) (as : List Attribute) : Prop where
  each : ∀ a ∈ as, a.PointsInto source ∧ start ≤ a.span.start ∧ a.span.stop ≤ stop
  ordered : as.Pairwise fun a b => a.span.stop ≤ b.span.start

namespace AttributesInOrder

variable {start stop : Nat} {as : List Attribute}

lemma nil : AttributesInOrder source start stop [] := ⟨by simp, .nil⟩

lemma cons {a : Attribute} (ha : a.PointsInto source) (hs : start ≤ a.span.start)
    (hl : a.span.start ≤ a.span.stop) (hst : a.span.stop ≤ stop)
    (has : AttributesInOrder source a.span.stop stop as) : AttributesInOrder source start stop (a :: as) := by
  refine ⟨fun b hb => ?_, pairwise_cons.2 ⟨fun b hb => (has.each b hb).2.1, has.ordered⟩⟩
  rcases mem_cons.1 hb with rfl | hb
  · exact ⟨ha, hs, hst⟩
  · obtain ⟨hp, hf, ht⟩ := has.each b hb
    exact ⟨hp, hs.trans (hl.trans hf), ht⟩

lemma mono {start' stop' : Nat} (h : AttributesInOrder source start stop as) (hs : start' ≤ start)
    (hst : stop ≤ stop') : AttributesInOrder source start' stop' as :=
  ⟨fun a ha => ⟨(h.each a ha).1, hs.trans (h.each a ha).2.1, (h.each a ha).2.2.trans hst⟩, h.ordered⟩

end AttributesInOrder

lemma exists_passes_readValue (c : Cursor) : ∃ pre aft, ∃ d e : Cursor, c.Passes pre d ∧
    d.Passes (readValue c).1.text.toList e ∧ e.Passes aft (readValue c).2 ∧ (readValue c).1.span = ⟨d.pos, e.pos⟩ := by
  unfold readValue
  split
  · rename_i text q aft hq
    obtain ⟨hw, e, post, ht, ha⟩ := Cursor.exists_passes_readQuoted? hq
    refine ⟨_, post, c.next, e, c.passes_skip 1, by simpa using ht, ha, ?_⟩
    rw [ht.pos, hw]
  · refine ⟨[], [], c, c.readUnquoted.2, .refl c, ?_, .refl _, rfl⟩
    rw [toList_ofList]
    exact c.passes_readWhile _

lemma Attribute.pointsInto_alone {start aft stop : Cursor} {name blanks : List Char} (hs : start.In source)
    (hn : start.Passes name aft) (hb : aft.Passes blanks stop) :
    Attribute.PointsInto ⟨String.ofList name, none, stop.spanFrom start.pos⟩ source := by
  refine ⟨⟨String.ofList blanks, ?_⟩, fun v hv => nomatch hv⟩
  rw [← String.ofList_append]
  exact (hn.trans hb).slice? hs

lemma Attribute.pointsInto_assigned {start aft assigned : Cursor} {name between : List Char}
    (hs : start.In source) (hn : start.Passes name aft) (hbe : aft.Passes between assigned)
    (ha : aft.pos < assigned.pos) :
    Attribute.PointsInto ⟨String.ofList name, some (readValue assigned).1, (readValue assigned).2.spanFrom start.pos⟩
      source := by
  obtain ⟨pre, post, d, e, hb, hva, hbh, hsp⟩ := exists_passes_readValue assigned
  refine ⟨⟨String.ofList (between ++ (pre ++ ((readValue assigned).1.text.toList ++ post))), ?_⟩, fun v hv => ?_⟩
  · rw [← String.ofList_append]
    exact (hn.trans (hbe.trans (hb.trans (hva.trans hbh)))).slice? hs
  · cases hv
    have hd : d.In source := hb.moves (hbe.moves (hn.moves hs))
    refine ⟨?_, ?_, ?_⟩
    · rw [hsp, hva.slice? hd, ofList_toList]
    · have hl := hb.le
      have hp := hn.pos
      simp only [hsp, Cursor.spanFrom, toList_ofList]
      omega
    · rw [hsp]
      exact hbh.le

/-- **The attributes of a tag stand in order** between the cursors around them. -/
lemma readAttributes_inOrder (c : Cursor) (hc : c.In source) : (∃ text, c.Passes text (readAttributes c).2) ∧
      AttributesInOrder source c.pos (readAttributes c).2.pos (readAttributes c).1 := by
  fun_induction readAttributes c with
  | case1 c start hst => exact ⟨⟨_, c.passes_skipBlanks⟩, .nil⟩
  | case2 c start hst hno ih =>
    have hs := c.passes_skipBlanks.trans (start.passes_skip 1)
    obtain ⟨⟨text, ht⟩, hinOrder⟩ := ih (hs.moves hc)
    exact ⟨⟨_, hs.trans ht⟩, hinOrder.mono hs.le le_rfl⟩
  | case3 c start hst name aft hn hno r stop hre ih =>
    have hs := c.passes_skipBlanks
    have hr := Cursor.passes_readAttributeName? hn
    have hb := aft.passes_skipBlanks
    obtain ⟨⟨text, ht⟩, hinOrder⟩ := ih (hb.moves (hr.moves (hs.moves hc)))
    rw [hre] at ht hinOrder
    have hp := Attribute.pointsInto_alone (hs.moves hc) hr hb
    exact ⟨⟨_, hs.trans (hr.trans (hb.trans ht))⟩, .cons hp hs.le (hr.trans hb).le ht.le hinOrder⟩
  | case4 c start hst name aft hn assigned ha v r stop hre ih =>
    have hs := c.passes_skipBlanks
    have hr := Cursor.passes_readAttributeName? hn
    have hsi := Cursor.passes_consume? ha
    have hbe := aft.passes_skipBlanks.trans (hsi.trans assigned.passes_skipBlanks)
    have hbh : aft.pos < assigned.skipBlanks.pos := by
      have hb := aft.passes_skipBlanks.le
      have hpo : assigned.pos = aft.skipBlanks.pos + 1 := hsi.pos
      have hl := assigned.passes_skipBlanks.le
      omega
    obtain ⟨pre, post, d, e, hbf, hv, haf, -⟩ := exists_passes_readValue assigned.skipBlanks
    have hal := hr.trans (hbe.trans (hbf.trans (hv.trans haf)))
    obtain ⟨⟨text, ht⟩, hinOrder⟩ := ih (hal.moves (hs.moves hc))
    rw [hre] at ht hinOrder
    have hp := Attribute.pointsInto_assigned (hs.moves hc) hr hbe hbh
    exact ⟨⟨_, hs.trans (hal.trans ht)⟩, .cons hp hs.le hal.le ht.le hinOrder⟩

/-- The spans of a section point at what they are the spans of, with the attributes in order before the content. -/
structure Block.PointsInto (b : Block) (source : String) : Prop where
  span : (b.span.slice? source).isSome = true
  content : b.contentSpan.slice? source = some b.content
  inside : b.span.start ≤ b.contentSpan.start ∧ b.contentSpan.stop ≤ b.span.stop
  attributes : AttributesInOrder source b.span.start b.contentSpan.start b.attributes

lemma Block.pointsInto_content {fst ms aft : Cursor} {opening ct : List Char}
    {attributes : List Attribute} (name : String) (hin : fst.In source) (ho : fst.Passes opening ms)
    (hc : ms.Passes ct aft) (ha : AttributesInOrder source fst.pos ms.pos attributes) :
    Block.PointsInto ⟨((aft.consumeClosingTag? name).getD aft).spanFrom fst.pos, aft.spanFrom ms.pos,
      String.ofList ct, attributes⟩ source := by
  obtain ⟨closing, hcl⟩ : ∃ text, aft.Passes text ((aft.consumeClosingTag? name).getD aft) := by
    cases hco : aft.consumeClosingTag? name with
    | none => exact ⟨[], .refl aft⟩
    | some closed => exact Cursor.exists_passes_consumeClosingTag? hco
  refine ⟨?_, hc.slice? (ho.moves hin), ⟨ho.le, hcl.le⟩, ha⟩
  rw [Cursor.spanFrom, (ho.trans (hc.trans hcl)).slice? hin]
  rfl

lemma readSection_pointsInto {pre r : List Char}
    (hs : source.toList = pre ++ r) (h : readSection source kind (byteLength pre) = .ok b) : b.PointsInto source := by
  have hin : (Cursor.start source (byteLength pre)).In source := Cursor.in_start hs
  generalize hf : Cursor.start source (byteLength pre) = fst at hin
  have hp : byteLength pre = fst.pos := by rw [← hf]; rfl
  obtain ⟨opened, ho⟩ : ∃ text, fst.Passes text (((fst.skip 1).readTagName?.map Prod.snd).getD (fst.skip 1)) := by
    unfold Cursor.readTagName?
    split
    · exact ⟨_, (fst.passes_skip 1).trans (Cursor.passes_readWhile _ _)⟩
    · exact ⟨_, fst.passes_skip 1⟩
  obtain ⟨⟨written, hw⟩, hinOrder⟩ := readAttributes_inOrder _ (ho.moves hin)
  unfold readSection at h
  simp only [hf] at h
  simp only [hp] at h
  generalize ((fst.skip 1).readTagName?.map Prod.snd).getD (fst.skip 1) = named at *
  have hst := ho.trans (hw.trans (readAttributes named).2.passes_skipBlanks)
  have ha : ∀ n, (readAttributes named).2.skipBlanks.pos ≤ n →
      AttributesInOrder source fst.pos n (readAttributes named).1 := fun n hn =>
    hinOrder.mono ho.le ((readAttributes named).2.passes_skipBlanks.le.trans hn)
  generalize (readAttributes named).2.skipBlanks = stop at *
  split at h
  · rename_i aft haf
    cases h
    have hc := Cursor.passes_consume? haf
    have hal := hst.trans hc
    refine ⟨?_, ?_, ⟨hal.le, le_rfl⟩, ha _ hc.le⟩
    · rw [Cursor.spanFrom, hal.slice? hin]
      rfl
    · exact (Cursor.Passes.refl aft).slice? (hal.moves hin)
  · split at h
    · cases h
    · rename_i ms his
      have hop := hst.trans (Cursor.passes_consume? his)
      have hb := ha _ (Cursor.passes_consume? his).le
      cases kind with
      | template =>
        split at h
        · cases h
        · cases h
          exact Block.pointsInto_content _ hin hop (Cursor.passes_readNestedContent (Prod.ext ‹_› rfl)) hb
      | script | style =>
        split at h
        · cases h
        · cases h
          exact Block.pointsInto_content _ hin hop (Cursor.passes_readContent (Prod.ext ‹_› rfl)) hb

lemma exists_of_mem_openingTagsFrom {name : List Char} {off start : Nat} {text : List Char}
    (h : start ∈ openingTagsFrom name off text) : ∃ before r, text = before ++ r ∧ start = off + byteLength before := by
  induction text generalizing off with
  | nil => cases h
  | cons c cs ih =>
    have hc : start = off ∨ start ∈ openingTagsFrom name (off + c.utf8Size) cs := by
      unfold openingTagsFrom at h
      split at h
      · exact mem_cons.1 h
      · exact .inr h
    rcases hc with rfl | h
    · exact ⟨[], c :: cs, rfl, rfl⟩
    · obtain ⟨before, r, rfl, rfl⟩ := ih h
      exact ⟨c :: before, r, rfl, by simp [add_assoc]⟩

lemma pointsInto_of_anchor? {start : Nat} (ha : anchor? source kind = some start)
    (h : readSection source kind start = .ok b) : b.PointsInto source := by
  have hm : start ∈ openingTags kind.tagName source := by
    cases kind with
    | template => exact mem_of_head? ha
    | script => exact mem_of_getLast? ha
    | style => exact mem_of_getLast? ha
  obtain ⟨pre, r, hs, rfl⟩ := exists_of_mem_openingTagsFrom hm
  rw [zero_add] at h
  exact readSection_pointsInto hs h

lemma anchor?_of_requireAnchor {start : Nat} (h : requireAnchor source kind = .ok start) :
    anchor? source kind = some start := by
  unfold requireAnchor at h
  split at h
  · rename_i ha
    rw [ha, ok.inj h]
  · cases h

lemma exists_of_parseDocument {doc : Document} (h : parseDocument source = .ok doc) :
    ∃ (script template : Block) (style : Option Block) (selector : AttributeValue), script.PointsInto source ∧
      template.PointsInto source ∧ (∀ b, style = some b → b.PointsInto source) ∧ requireSelector script = .ok selector ∧
      doc = ⟨template.toSection, ⟨script, script.lang?, script.reference?, trim selector.text, selector.span,
        script.usesShadow⟩, style.map Block.toSection⟩ := by
  obtain ⟨scriptStart, hscriptStart, h⟩ := bind_eq_ok.1 h
  obtain ⟨templateStart, htemplateStart, h⟩ := bind_eq_ok.1 h
  obtain ⟨script, hsc, h⟩ := bind_eq_ok.1 h
  obtain ⟨template, ht, h⟩ := bind_eq_ok.1 h
  have hsc := pointsInto_of_anchor? (anchor?_of_requireAnchor hscriptStart) hsc
  have ht := pointsInto_of_anchor? (anchor?_of_requireAnchor htemplateStart) ht
  dsimp only at h
  split at h
  · rename_i start ha
    obtain ⟨style, hs, h⟩ := bind_eq_ok.1 h
    obtain ⟨-, -, h⟩ := bind_eq_ok.1 h
    obtain ⟨-, -, h⟩ := bind_eq_ok.1 h
    obtain ⟨selector, hse, h⟩ := bind_eq_ok.1 h
    refine ⟨script, template, style, selector, hsc, ht, ?_, hse, (ok.inj h).symm⟩
    rintro b rfl
    cases hr : readSection source .style start with
    | error e =>
      rw [hr] at hs
      cases hs
    | ok found =>
      rw [hr] at hs
      obtain rfl : found = b := some.inj (ok.inj hs)
      exact pointsInto_of_anchor? ha hr
  · obtain ⟨style, hs, h⟩ := bind_eq_ok.1 h
    obtain rfl : none = style := ok.inj hs
    obtain ⟨-, -, h⟩ := bind_eq_ok.1 h
    obtain ⟨-, -, h⟩ := bind_eq_ok.1 h
    obtain ⟨selector, hse, h⟩ := bind_eq_ok.1 h
    exact ⟨script, template, none, selector, hsc, ht, fun b hb => (nomatch hb), hse, (ok.inj h).symm⟩

lemma exists_of_requireSelector {value : AttributeValue} (h : requireSelector b = .ok value) :
    ∃ a ∈ b.attributes, a.value = some value := by
  unfold requireSelector at h
  split at h
  · cases h
  · rename_i a ha
    split at h
    · cases h
    · rename_i v hv
      split at h
      · cases h
      · exact ⟨a, mem_of_find?_eq_some ha, by rw [hv, ok.inj h]⟩

lemma exists_of_reference? {r : Reference} (h : b.reference? = some r) :
    ∃ a ∈ b.attributes, ∃ v, a.value = some v ∧ r = ⟨trim v.text, a.span, v.span⟩ := by
  obtain ⟨a, ha, h⟩ := bind_eq_some_iff.1 h
  obtain ⟨v, hv, h⟩ := bind_eq_some_iff.1 h
  obtain ⟨u, -, h⟩ := bind_eq_some_iff.1 h
  exact ⟨a, mem_of_find?_eq_some ha, v, hv, (some.inj h).symm⟩

def SlicesTo (span : Span) (source trimmed : String) : Prop :=
  ∃ text, span.slice? source = some text ∧ trim text = trimmed

lemma Block.PointsInto.slicesTo (h : b.PointsInto source) {a : Attribute} (ha : a ∈ b.attributes)
    {v : AttributeValue} (hv : a.value = some v) : SlicesTo v.span source (trim v.text) :=
  ⟨v.text, ((h.attributes.each a ha).1.value v hv).1, rfl⟩

lemma Block.PointsInto.slicesTo_reference (h : b.PointsInto source) {r : Reference} (hr : b.reference? = some r) :
    SlicesTo r.valueSpan source r.path := by
  obtain ⟨a, ha, v, hv, rfl⟩ := exists_of_reference? hr
  exact h.slicesTo ha hv

/-- **Every span of a document points at what it is the span of**: a section, its content, an attribute, the selector or a
reference. -/
theorem parseDocument_pointsInto {source : String} {doc : Document} (h : parseDocument source = .ok doc) :
    doc.template.block.PointsInto source ∧ doc.script.block.PointsInto source ∧
      (∀ style, doc.style = some style → style.block.PointsInto source) ∧
      SlicesTo doc.script.selectorSpan source doc.script.selector ∧
      ∀ r, (doc.template.reference = some r ∨ doc.script.reference = some r ∨
        ∃ style, doc.style = some style ∧ style.reference = some r) → SlicesTo r.valueSpan source r.path := by
  obtain ⟨script, template, style, selector, hscript, htemplate, hstyle, hselector, rfl⟩ := exists_of_parseDocument h
  refine ⟨htemplate, hscript, ?_, ?_, ?_⟩
  · intro s hs
    obtain ⟨b, hb, rfl⟩ := map_eq_some_iff.1 hs
    exact hstyle b hb
  · obtain ⟨a, ha, hvalue⟩ := exists_of_requireSelector hselector
    exact hscript.slicesTo ha hvalue
  · rintro r (hr | hr | ⟨s, hs, hr⟩)
    · exact htemplate.slicesTo_reference hr
    · exact hscript.slicesTo_reference hr
    · obtain ⟨b, hb, rfl⟩ := map_eq_some_iff.1 hs
      exact (hstyle b hb).slicesTo_reference hr

/-- Stray quotes and slashes, an empty value, and characters of more than one byte. -/
def strayDocument : String :=
  "<template id='\u00e9' / \" class=>\u00fc</template><script selector=' x-a' src>class A \x7b\x7d</script>"

theorem parseDocument_pointsInto_stray : ∃ doc, parseDocument strayDocument = .ok doc ∧
    doc.template.block.attributes.map (fun a => (a.name, a.span.start)) = [("id", 10), ("class", 22)] ∧
    AttributesInOrder strayDocument 0 29 doc.template.block.attributes ∧
    (Span.mk 29 31).slice? strayDocument = some doc.template.block.content ∧
    SlicesTo doc.script.selectorSpan strayDocument "x-a" := by
  have hread : (parseDocument strayDocument).toOption.map (fun doc => ((doc.template.block.span.start,
      doc.template.block.contentSpan), doc.template.block.attributes.map (fun a => (a.name, a.span.start)),
      doc.script.selector)) = some ((0, ⟨29, 31⟩), [("id", 10), ("class", 22)], "x-a") := by
    decide +kernel
  cases hdoc : parseDocument strayDocument with
  | error e => simp [hdoc, Except.toOption] at hread
  | ok doc =>
    simp only [hdoc, Except.toOption, map_some, some.injEq, Prod.mk.injEq] at hread
    obtain ⟨⟨hspan, hcontent⟩, hattributes, hselector⟩ := hread
    obtain ⟨htemplate, -, -, hslices, -⟩ := parseDocument_pointsInto hdoc
    have hinOrder := htemplate.attributes
    have hslice := htemplate.content
    rw [hspan, hcontent] at hinOrder
    rw [hcontent] at hslice
    rw [hselector] at hslices
    exact ⟨doc, rfl, hattributes, hinOrder, hslice, hslices⟩

end CustomElement.Markup
