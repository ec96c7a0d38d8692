import CustomElement.Proofs.Script.Calls
import CustomElement.Proofs.Script.Walk

/-!
# Decisions

The walk decides at every token, and as a whole, as its view shows (`Framed.step`, `Framed.scan`): it never looks at a
token or a piece of text that is not there.
-/

namespace CustomElement.Script

open Text

variable {frame : Frame} {edits : List Edit} {move : Move} {hi j k lo m n : Nat} {p q : Progress} {c d : Site}
  {visits : List (Site × Move)}

namespace Stream

section Back

variable (s : Stream)

def back (t : Token) : Token := { t with start := (s.tok t.start).start }

/-- What the walk on a view remembers, as the walk on the script remembers it. -/
def recalled (p : Progress) : Progress := { p with last := p.last.map s.back, first := p.first.map s.back }

/-- What is remembered is what the view remembers, and the last token stands before `n`. -/
structure Recalls (n : Nat) (p q : Progress) : Prop where
  eq : q = s.recalled p
  last : ∀ t, p.last = some t → ∃ i < n, i < s.size ∧ t = s.seen i

end Back

variable {s : Stream} {erase : String → Except Fault String}

@[simp] lemma back_seen (j : Nat) : s.back (s.seen j) = s.tok j := rfl

@[simp] lemma isOneOf_back (t : Token) (texts : List String) : (s.back t).isOneOf texts = t.isOneOf texts := rfl

@[simp] lemma endsExpression_back (t : Token) : (s.back t).endsExpression = t.endsExpression := rfl

@[simp] lemma last_recalled : (s.recalled p).last = p.last.map s.back := rfl

@[simp] lemma ternary_recalled : (s.recalled p).ternary = p.ternary := rfl

@[simp] lemma binding_recalled : (s.recalled p).binding = p.binding := rfl

@[simp] lemma caseLabel_recalled : (s.recalled p).caseLabel = p.caseLabel := rfl

@[simp] lemma heritage_recalled : (s.recalled p).heritage = p.heritage := rfl

@[simp] lemma isPunct_bare (j : Nat) (text : String) : (s.bare.tok j).isPunct text = (s.tok j).isPunct text := by
  simp only [Token.isPunct, kind_bare, text_bare]

lemma braceFrame_recalled (p : Progress) : (s.recalled p).braceFrame = p.braceFrame := by
  obtain ⟨last, ternary, binding, caseLabel, colonValue, fst, heritage⟩ := p
  cases last with
  | none => rfl
  | some last =>
    cases fst with
    | none => rfl
    | some fst => rfl

lemma typeArgumentsAllowed_back (last : Option Token) :
    typeArgumentsAllowed (last.map s.back) = typeArgumentsAllowed last := by
  cases last with
  | none => rfl
  | some t => rfl

lemma startsStatement_bare (j : Nat) (last : Option Token) :
    s.bare.startsStatement j last = s.startsStatement j (last.map s.back) := by
  have hco : (s.bare.tok j).continuesExpression = (s.tok j).continuesExpression := by
    simp only [Token.continuesExpression, kind_bare, text_bare]
  cases last with
  | none => rfl
  | some t =>
    simp only [startsStatement, hco]
    rfl

lemma isAssertion_bare (frame : Frame) (p : Progress) (hi j : Nat) :
    s.bare.isAssertion frame p hi j = s.isAssertion frame (s.recalled p) hi j := by
  unfold isAssertion
  rw [last_recalled, Option.any_map, typeStarts_bare]
  rfl

namespace Recalls

lemma mono (h : s.Recalls n p q) (hl : n ≤ m) : s.Recalls m p q :=
  ⟨h.eq, fun t ht => (h.last t ht).imp fun _ hi => ⟨hi.1.trans_le hl, hi.2⟩⟩

lemma start (n : Nat) : s.Recalls n {} {} := ⟨rfl, nofun⟩

end Recalls

variable (s erase) in
/-- A decision on the view and one on the script are the same. It leads on, what it remembers is a token before the place
where it goes on, and a group that it enters is a frame before that. -/
structure Matches (j hi : Nat) (stride : Stride) (move : Move) : Prop where
  makes : s.Makes erase stride.changes move.edits
  inner : stride.inner = move.inner
  next : stride.next = move.next
  lt : j < move.next
  progress : s.Recalls move.next stride.progress move.progress
  group : ∀ inner, move.inner = some inner → j < inner.lo ∧ inner.hi ≤ hi ∧ inner.hi < move.next ∧
    s.Framed inner.lo inner.hi ∧ inner.hi < s.size ∧ (s.tok inner.hi).isCloser = true

lemma Matches.with_changes {stride : Stride} {changes : List Change} (h : s.Matches erase j hi stride move)
    (hm : s.Makes erase changes edits) :
    s.Matches erase j hi { stride with changes := changes } { move with edits := edits } :=
  ⟨hm, h.inner, h.next, h.lt, h.progress, h.group⟩

variable (s erase) in
def Chooses (j hi : Nat) (stride? : Option Stride) (move : Move) : Prop :=
  ∃ stride, stride? = some stride ∧ s.Matches erase j hi stride move

lemma Chooses.follows {stride? : Option Stride} (h : s.Chooses erase j hi stride? move) :
    s.Follows erase (s.Matches erase j hi) (liftM stride?) (.ok move) := by
  obtain ⟨stride, heq, h⟩ := h
  exact .found heq h

lemma Chooses.look {α : Type} {o : Option α} {a : α} {f : α → Option Stride} (ho : o = some a)
    (h : s.Chooses erase j hi (f a) move) : s.Chooses erase j hi (o >>= f) move := by
  subst ho
  exact h

lemma Chooses.ite {a : Prop} [Decidable a] {x x' : Option Stride} {y y' : Move} (h : a → s.Chooses erase j hi x y)
    (h' : ¬a → s.Chooses erase j hi x' y') : s.Chooses erase j hi (if a then x else x') (if a then y else y') := by
  by_cases ha : a
  · simpa only [if_pos ha] using h ha
  · simpa only [if_neg ha] using h' ha

section

variable {changes? : Option (List Change)} {next : Nat} (h : s.Finds erase changes? edits)
  (hn : j < next) (hp : s.Recalls j p q)

include h hn hp

lemma chooses_changes : s.Chooses erase j hi (do return { changes := ← changes?, progress := p, next := next })
      { edits := edits, progress := q, next := next } := by
  obtain ⟨changes, rfl, hm⟩ := h
  exact ⟨_, rfl, hm, rfl, rfl, hn, hp.mono hn.le, nofun⟩

lemma follows_changes :
    s.Follows erase (s.Matches erase j hi) (do return { changes := ← changes?, progress := p, next := next })
      (.ok { edits := edits, progress := q, next := next }) := by
  obtain ⟨changes, rfl, hm⟩ := h
  exact .ok ⟨hm, rfl, rfl, hn, hp.mono hn.le, nofun⟩

end

lemma chooses_keep (hm : m < s.size) (hj : j ≤ m) (hp : s.Recalls n p q) :
    s.Chooses erase j hi (s.view.keep? p m) (s.keep q m) := by
  refine .look (tok?_view hm) ⟨_, rfl, .nil, rfl, rfl, Nat.lt_succ_of_le hj, ⟨?_, ?_⟩, nofun⟩
  · rw [hp.eq]
    rfl
  · rintro t ht
    exact ⟨m, lt_succ_self m, hm, (some.inj ht).symm⟩

namespace Framed

variable (hf : s.Framed lo hi)

include hf

lemma enter (hl : lo ≤ m) (hm : m < hi) (ho : (s.tok m).isOpener) (hj : j ≤ m) (hp : s.Recalls n p q) (frame : Frame) :
    s.Chooses erase j hi (s.view.enter? frame p m) (s.enter frame q hi m) := by
  obtain ⟨hpa, hlt, hs⟩ := hf.close hl hm ho
  refine .look (hf.close?_view hl hm ho) (.look (tok?_view hs) ⟨_, rfl, .nil, rfl, rfl, ?_, ⟨?_, ?_⟩, ?_⟩)
  · change j < s.close hi m + 1
    omega
  · rw [hp.eq]
    rfl
  · rintro t ht
    exact ⟨_, lt_succ_self _, hs, (some.inj ht).symm⟩
  · rintro inner hin
    cases hin
    exact ⟨Nat.lt_succ_of_le hj, s.close_le hi m hm.le, lt_succ_self _, framed_of_partner hf.read ho hpa⟩

lemma classTail (hlo : lo ≤ m) (hj : j < hi) (hjm : j < m ∨ j = m ∧ s.isAny m [openBrace, "implements"])
    (hp : s.Recalls n p q) : s.Chooses erase j hi (s.view.classTail? p hi m) (s.classTail q hi m) := by
  have hle := hf.le_size
  unfold Stream.classTail View.classTail?
  simp -zeta only [code_view, is_bare]
  extract_lets p' listed bodyAt? q' bodyAt edits
  have hp' : s.Recalls n p' q' := ⟨by simp only [q', hp.eq]; rfl, hp.last⟩
  have hbo : bodyAt? = some bodyAt := by
    simp only [bodyAt?, bodyAt]
    split
    · exact hf.implementsEnd (by omega)
    · rfl
  have hg : m ≤ bodyAt ∧ (listed → m < bodyAt) := by
    have he := s.le_implementsEnd hi (m + 1)
    simp only [bodyAt]
    split
    · omega
    · exact ⟨le_rfl, fun h => absurd h ‹_›⟩
  have hch : s.Finds erase
      (if (listed && decide (bodyAt < hi)) then View.cut? (s.view.start? m) (s.view.start? bodyAt) else some []) edits := by
    simp only [edits]
    split
    · rename_i h
      have hlt : bodyAt < hi := of_decide_eq_true (and_eq_true_iff.1 h).2
      exact finds_cut (marks_start (by omega)) (marks_start (by omega))
    · exact ⟨[], rfl, .nil⟩
  obtain ⟨chs, hch, hm⟩ := hch
  refine .look hbo (.look hch (.ite (fun h => ?_) fun h => ?_))
  · obtain ⟨hlt, hb⟩ := and_eq_true_iff.1 h
    obtain ⟨stride, hs, hma⟩ := hf.enter (by omega) (of_decide_eq_true hlt)
      (isOpener_of_is hf.read hb (by decide)) (show j ≤ bodyAt by omega) hp' .classBody
    exact .look hs ⟨_, rfl, hma.with_changes hm⟩
  · have hne : j < min bodyAt hi := by
      rcases hjm with hlt | ⟨rfl, hcl⟩
      · omega
      · -- A brace would be entered, so there is a clause to pass.
        have hl : listed := by
          by_contra hn
          have hno : s.is j "implements" = false := by simpa [listed, hj] using hn
          have hb : s.is j openBrace := by simpa [isAny, hno] using hcl
          have heq : bodyAt = j := if_neg hn
          exact h (by simp [heq, hj, hb])
        have := hg.2 hl
        omega
    refine .look (tok?_view (by omega)) ⟨_, rfl, hm, rfl, rfl, hne, ⟨?_, ?_⟩, by simp⟩
    · rw [hp'.eq]
      rfl
    · rintro t ht
      exact ⟨min bodyAt hi - 1, by dsimp only; omega, by omega, (some.inj ht).symm⟩

lemma angle_lt (hl : lo ≤ m) {angle : { k // m ≤ k }} (h : s.angleEnd hi m = some angle) : angle.1 < hi :=
  ((hf.angleStop hl 0).2 angle.1 (congrArg (Option.map Subtype.val) h)).2

lemma heritageStep (hl : lo ≤ j) (hj : j < hi) (hp : s.Recalls n p q) :
    s.Chooses erase j hi (s.view.heritageStep? p hi j) (s.heritageStep q hi j) := by
  have hle := hf.le_size
  unfold Stream.heritageStep View.heritageStep?
  simp -zeta only [code_view, is_bare, isAny_bare]
  refine .ite (fun h => hf.classTail hl hj (.inr ⟨rfl, h⟩) hp) fun _ => .look (hf.angleAt hl _) ?_
  extract_lets arguments
  have han : Option.filter (fun angle => s.isAny (angle + 1) [openBrace, "implements"])
      (Option.map Subtype.val (if s.is j "<" = true then s.angleEnd hi j else none)) = arguments.map Subtype.val := by
    simp only [arguments]
    split
    · exact Option.filter_map ..
    · rfl
  rw [han]
  cases ha : arguments with
  | some angle =>
    have hlt : angle.1 < hi := by
      simp only [arguments] at ha
      split at ha
      · exact hf.angle_lt hl (Option.filter_eq_some_iff.1 ha).1
      · cases ha
    obtain ⟨chs, hch, hm⟩ : s.Finds erase _ _ :=
      finds_cut (marks_start (show j < s.size by omega)) (marks_stop (show angle.1 < s.size by omega))
    refine .look hch (.look (tok?_view (by omega)) ⟨_, rfl, hm, rfl, rfl, Nat.lt_succ_of_le angle.2, ⟨?_, ?_⟩, by simp⟩)
    · rw [hp.eq]
      rfl
    · rintro t ht
      exact ⟨angle.1, lt_succ_self _, by omega, (some.inj ht).symm⟩
  | none =>
    exact .look (tok?_view (by omega)) (.ite (fun ho => hf.enter hl hj ho le_rfl hp .paren) fun _ => chooses_keep (by omega) le_rfl hp)

lemma classStep (hlo : lo ≤ j) (hj : j < hi) (hp : s.Recalls j p q) :
    s.Follows erase (s.Matches erase j hi) (s.view.classStep? p hi j) (s.classStep q hi j) := by
  have hle := hf.le_size
  unfold Stream.classStep View.classStep?
  simp -zeta only [code_view, is_bare, isWord_bare, isAny_bare]
  extract_lets m rest rest'
  have hm : j < m := by
    simp only [m]
    split <;> omega
  have hr (chs : List Change) (edits : List Edit) (m : Nat) (hm : j < m) (hma : s.Makes erase chs edits) :
      s.Follows erase (s.Matches erase j hi) (rest (chs, m)) (rest' (edits, m)) := by
    refine .ite (fun h => ?_) fun _ => ?_
    · have hl : m < hi := of_decide_eq_true (and_eq_true_iff.1 h).1
      refine .look (tok?_view (by omega)) (.ok ⟨hma, rfl, rfl, by dsimp only; omega, ⟨?_, ?_⟩, by simp⟩)
      · rw [hp.eq]
        rfl
      · rintro t ht
        exact ⟨m, lt_succ_self m, by omega, (some.inj ht).symm⟩
    · obtain ⟨stride, hs, hmt⟩ := hf.classTail (show lo ≤ m by omega) hj (.inl hm) hp
      exact .look hs (.ok (hmt.with_changes (hma.append hmt.makes)))
  refine .ite (fun h => ?_) fun _ => hr [] [] m hm .nil
  have hl : m < hi := of_decide_eq_true (and_eq_true_iff.1 h).1
  refine .look (hf.angleEnd (by omega)) ?_
  cases ha : s.angleEnd hi m with
  | none => exact .own m _
  | some angle =>
    have ha := hf.angle_lt (by omega) ha
    obtain ⟨chs, hch, hma⟩ : s.Finds erase _ _ :=
      finds_cut (marks_start (show m < s.size by omega)) (marks_stop (show angle.1 < s.size by omega))
    exact .look hch (hr chs _ _ (Nat.lt_succ_of_le (hm.le.trans angle.2)) hma)

lemma specifierStep (hj : j < hi) (he : hi < s.size ∧ (s.tok hi).isCloser) (hw : s.isWord (j + 1))
    (hp : s.Recalls j p q) : s.Chooses erase j hi (s.view.specifierStep? p hi j) (s.specifierStep q hi j) := by
  have hle := hf.le_size
  unfold Stream.specifierStep View.specifierStep?
  simp -zeta only [code_view, is_bare]
  extract_lets stop changes? edits
  have hs : j < stop ∧ stop - 1 < s.size := by
    have hlt := lt_size_of_isWord hw
    simp only [stop]
    split
    · -- The frame is closed behind the words.
      rename_i ha
      have hn (i : Nat) (hi' : s.isWord i ∨ s.is i "as") : i ≠ hi := by
        rintro rfl
        have hcl := he.2
        simp only [Token.isCloser, and_eq_true, or_eq_true, beq_iff_eq] at hcl
        rcases hi' with hi' | hi' <;> simp_all [isWord, is, closeBrace]
      have ho := hn _ (.inl hw)
      have ht := hn _ (.inr ha)
      omega
    · omega
  refine .ite (fun h => ?_) fun _ => ?_
  · have hlt : stop < hi := of_decide_eq_true (and_eq_true_iff.1 h).1
    refine chooses_changes ?_ (by omega) hp
    simp only [changes?, edits]
    split
    · exact finds_cut (marks_start (by omega)) (marks_start (by omega))
    · exact finds_cutTokens (by omega)
  · obtain ⟨rfl, hl⟩ := hp
    have hb : ((fun t : Token => t.isOneOf [","]) ∘ s.back) = fun t => t.isOneOf [","] := rfl
    rw [last_recalled, Option.filter_map, hb]
    cases hco : p.last.filter fun t => t.isOneOf [","] with
    | some comma =>
      obtain ⟨i, -, hi', rfl⟩ := hl comma (Option.filter_eq_some_iff.1 hco).1
      exact chooses_changes (finds_cut (marks_start hi') (marks_stop hs.2)) hs.1 ⟨rfl, hl⟩
    | none => exact chooses_changes (finds_cutTokens (by omega)) hs.1 ⟨rfl, hl⟩

section

variable (hlo : lo ≤ j) (hj : j < hi) (hp : s.Recalls j p q)

include hlo hj hp

lemma wordStep : s.Follows erase (s.Matches erase j hi) (s.view.wordStep? frame p hi j) (s.wordStep frame q hi j) := by
  have hle := hf.le_size
  obtain ⟨rfl, hl⟩ := hp
  have hs : j < s.size := by omega
  have hk {p' : Progress} (hl' : p'.last = p.last) : s.Follows erase (s.Matches erase j hi) (liftM (s.view.keep? p' j))
      (.ok (s.keep (s.recalled p') j)) :=
    (chooses_keep hs le_rfl ⟨rfl, hl' ▸ hl⟩).follows
  unfold Stream.wordStep View.wordStep?
  refine .look (tok?_view hs) ?_
  simp only [code_view, is_bare, isAssertion_bare, last_recalled, Option.any_map, Option.all_map, Option.isNone_map,
    text_seen, kind_bare, isPunct_bare]
  refine .ite (fun _ => hk rfl) fun _ =>
    .ite (fun _ => (hf.typeEnd (show lo ≤ j + 1 by omega)).bind ?_) fun _ =>
    .ite (fun _ => (hf.typeEnd (show lo ≤ j + 2 by omega)).bind ?_) fun _ =>
    .ite (fun h => follows_changes (finds_cut (marks_start hs) (marks_start ?_)) (by omega) ⟨rfl, hl⟩) fun _ =>
    hk rfl
  · rintro stop ⟨_, hlt⟩ - ⟨rfl, hs⟩
    exact follows_changes (finds_cutInline hs) (by omega) ⟨rfl, hl⟩
  · rintro stop ⟨_, hlt⟩ - ⟨rfl, hs⟩
    refine .ite (fun h => ?_) fun _ => follows_changes (finds_cutTokens hs) (by omega) ⟨rfl, hl⟩
    have hlt : stop + 1 < hi := of_decide_eq_true (and_eq_true_iff.1 h).1
    exact follows_changes (finds_cut (marks_start (by omega)) (marks_start (by omega))) (by omega) ⟨rfl, hl⟩
  · by_contra hlt
    rw [tok_of_size_le (not_lt.1 hlt)] at h
    simp [Token.isPunct, openBrace] at h

lemma colonStep : s.Follows erase (s.Matches erase j hi) (s.view.colonStep? frame p hi j) (s.colonStep frame q hi j) := by
  have hle := hf.le_size
  obtain ⟨rfl, hl⟩ := hp
  have hk {p' : Progress} (hl' : p'.last = p.last) : s.Follows erase (s.Matches erase j hi) (liftM (s.view.keep? p' j))
      (.ok (s.keep (s.recalled p') j)) :=
    (chooses_keep (by omega) le_rfl ⟨rfl, hl' ▸ hl⟩).follows
  unfold Stream.colonStep View.colonStep?
  simp -zeta only [ternary_recalled, caseLabel_recalled, binding_recalled, last_recalled, Option.any_map]
  refine .ite (fun _ => hk rfl) fun _ => .ite (fun _ => hk rfl) fun _ => ?_
  extract_lets afterParen annotation
  refine .ite (fun _ => (hf.typeEnd (show lo ≤ j + 1 by omega)).bind ?_) fun _ => hk rfl
  rintro stop ⟨_, hlt⟩ - ⟨rfl, hs⟩
  exact follows_changes (finds_cutInline hs) (by omega) ⟨rfl, hl⟩

lemma angleStep : s.Chooses erase j hi (s.view.angleStep? p hi j) (s.angleStep q hi j) := by
  have hle := hf.le_size
  obtain ⟨rfl, hl⟩ := hp
  unfold Stream.angleStep View.angleStep?
  simp -zeta only [code_view, is_bare, last_recalled, typeArgumentsAllowed_back, Option.all_map, endsExpression_back,
    isOneOf_back]
  extract_lets assertion t angle?
  have han : Option.filter (fun angle => decide (angle + 1 < hi))
      (Option.map Subtype.val (if (assertion || typeArgumentsAllowed p.last) then s.angleEnd hi j else none)) = angle? := by
    simp only [angle?]
    split
    · rfl
    · rfl
  refine .look (hf.angleAt hlo _) ?_
  rw [han]
  have hk : s.Chooses erase j hi (s.view.keep? p j) (s.keep (s.recalled p) j) := chooses_keep (by omega) le_rfl ⟨rfl, hl⟩
  cases ha : angle? with
  | some angle =>
    have hlt : j ≤ angle ∧ angle + 1 < hi := by
      rw [← han] at ha
      obtain ⟨ha, hlt⟩ := Option.filter_eq_some_iff.1 ha
      obtain ⟨⟨_, hle⟩, -, rfl⟩ := map_eq_some_iff.1 ha
      exact ⟨hle, of_decide_eq_true hlt⟩
    refine .ite (fun _ => ?_) fun _ => .ite (fun _ => ?_) fun _ => hk
    · exact chooses_changes (finds_cut (marks_start (by omega)) (marks_start (by omega))) (by omega) ⟨rfl, hl⟩
    · exact chooses_changes (finds_cut (marks_start (by omega)) (marks_stop (by omega))) (by omega) ⟨rfl, hl⟩
  | none => exact hk

lemma punctStep (hki : (s.tok j).kind = .punct) :
    s.Follows erase (s.Matches erase j hi) (s.view.punctStep? frame p hi j) (s.punctStep frame q hi j) := by
  have hle := hf.le_size
  have hs : j < s.size := by omega
  obtain ⟨rfl, hl⟩ := hp
  have hk {p' : Progress} (hl' : p'.last = p.last) : s.Follows erase (s.Matches erase j hi) (liftM (s.view.keep? p' j))
      (.ok (s.keep (s.recalled p') j)) :=
    (chooses_keep hs le_rfl ⟨rfl, hl' ▸ hl⟩).follows
  have he (frame : Frame) (ht : ["(", "[", openBrace].contains (s.tok j).text) :
      s.Follows erase (s.Matches erase j hi) (liftM (s.view.enter? frame p j)) (.ok (s.enter frame (s.recalled p) hi j)) := by
    have ho : (s.tok j).isOpener := by simpa [Token.isOpener, hki, or_assoc] using ht
    exact (hf.enter hlo hj ho le_rfl ⟨rfl, hl⟩ frame).follows
  unfold Stream.punctStep View.punctStep?
  refine .look (tok?_view hs) ?_
  simp -zeta only [code_view, is_bare, isAny_bare, breakBefore_bare, text_seen, ternary_recalled, binding_recalled, last_recalled,
    Option.any_map]
  extract_lets optional t drop nonNull
  have hd : s.Follows erase (s.Matches erase j hi) (liftM (s.view.drop? p j)) (.ok drop) :=
    (chooses_changes (finds_cut (marks_start hs) (marks_stop hs)) (lt_succ_self j) ⟨rfl, hl⟩).follows
  have hm : (p.last.any fun q => s.view.meets q.start j && q.endsExpression) = nonNull := by
    cases hpr : p.last with
    | none => simp [nonNull, hpr]
    | some u =>
      obtain ⟨i, -, -, rfl⟩ := hl u hpr
      simp only [nonNull, hpr, any_some]
      rfl
  rw [hm, apply_ite (pure : Move → Except Fault Move), apply_ite (pure : Move → Except Fault Move)]
  refine .ite (fun _ => .ite (fun _ => hd) fun _ => hk rfl) fun _ =>
    .ite (fun _ => hf.colonStep hlo hj ⟨rfl, hl⟩) fun _ => .ite (fun _ => hk rfl) fun _ => .ite (fun _ => hk rfl) fun _ =>
    .ite (fun _ => hk rfl) fun _ => .ite (fun _ => .ite (fun _ => hd) fun _ => hk rfl) fun _ =>
    .ite (fun _ => (hf.angleStep hlo hj ⟨rfl, hl⟩).follows) fun _ => .ite (fun h => he _ ?_) fun _ =>
    .ite (fun h => he _ ?_) fun _ => .ite (fun h => ?_) fun _ => hk rfl
  · simp_all
  · simp_all
  · rw [braceFrame_recalled]
    exact he _ (by simp_all)

end

omit hf in
lemma follows_mapM {α β γ : Type} {xs : List α} {f : α → Checked β} {g : α → Except Fault γ} {r : β → γ}
    (h : ∀ x ∈ xs, s.Follows erase (fun b c => c = r b) (f x) (g x)) :
    s.Follows erase (fun bs cs => cs = bs.map r) (xs.mapM f) (xs.mapM g) := by
  induction xs with
  | nil => exact .ok rfl
  | cons x xs ih =>
    obtain ⟨hx, hxs⟩ := List.forall_mem_cons.1 h
    rw [List.mapM_cons, List.mapM_cons]
    refine hx.bind ?_
    rintro b c - rfl
    refine (ih hxs).bind ?_
    rintro bs cs - rfl
    exact .ok rfl

section Embedded

variable {erase? : String → Option (Option String)}
  (herase : ∀ e : String, e.length + 3 ≤ s.source.length → erase? e = some (erase e).toOption)

include herase

omit hf in
lemma substitutionEdits (hs : Stream.read s.source = .ok s) (hj : j < s.size) :
    s.Follows erase (fun chs edits => edits = chs.flatMap s.render)
      (View.substitutionChanges? erase? j (s.tok j).text) (Script.substitutionEdits erase (s.tok j)) := by
  have hl := length_text_tok hs hj
  unfold Script.substitutionEdits View.substitutionChanges?
  cases hsu : templateSubstitutions (s.tok j).text with
  | error fault => exact .error (congrArg faultOf hsu) trivial
  | ok subs =>
    refine (follows_mapM (r := fun chs => chs.flatMap s.render) fun sub hsb => ?_).bind ?_
    · obtain ⟨expr, hsl, hsh⟩ := exists_slice_of_templateSubstitutions hsu hsb
      rw [hsl]
      refine .look rfl ((follows_erased herase (by omega)).bind ?_)
      rintro erased _ - rfl
      refine .ok ?_
      simp only [getD_some]
      split
      · rfl
      · rfl
    · rintro chs edits - rfl
      exact .ok (by simp [List.flatMap_def, List.flatten_flatten, comp_def])

lemma tokenStep (hlo : lo ≤ j) (hj : j < hi) (hen : frame = .specifiers → hi < s.size ∧ (s.tok hi).isCloser)
    (hp : s.Recalls j p q) :
    s.Follows erase (s.Matches erase j hi) (s.view.tokenStep? erase? frame p hi j) (s.tokenStep erase frame q hi j) := by
  have hle := hf.le_size
  have hs : j < s.size := by omega
  unfold Stream.tokenStep View.tokenStep?
  refine .look (tok?_view hs) ?_
  obtain ⟨rfl, hl⟩ := hp
  have hp : s.Recalls j p (s.recalled p) := ⟨rfl, hl⟩
  simp -zeta only [code_view, is_bare, isAny_bare, isWord_bare, kind_seen, text_seen, last_recalled, Option.any_map,
    isOneOf_back]
  refine .ite (fun _ => hf.classStep hlo hj hp) fun _ => .ite (fun h => ?_) fun _ => ?_
  · simp only [and_eq_true, beq_iff_eq] at h
    exact (hf.specifierStep hj (hen h.1.1.1) h.1.2 hp).follows
  obtain ⟨stride, hk, hm⟩ : s.Chooses erase j hi _ _ := chooses_keep hs le_rfl hp
  have hr : s.Follows erase (s.Matches erase j hi) (liftM (s.view.keep? p j)) (.ok (s.keep (s.recalled p) j)) :=
    .found hk hm
  dsimp only
  cases hki : (s.tok j).kind with
  | word => exact hf.wordStep hlo hj hp
  | punct => exact hf.punctStep hlo hj hp hki
  | template =>
    refine .ite (fun h => (substitutionEdits herase hf.read hs).bind ?_) fun _ =>
      .look hk (.ok (hm.with_changes .nil))
    rintro chs edits hed heq
    exact .look hk (.ok (hm.with_changes ⟨heq, fun e he => .substitution hki h hed he⟩))
  | _ => exact hr

lemma memberStep (hlo : lo ≤ j) (hj : j < hi) (he : hi < s.size ∧ (s.tok hi).isCloser) (hp : s.Recalls j p q) :
    s.Follows erase (s.Matches erase j hi) (s.view.memberStep? erase? p hi j) (s.memberStep erase q hi j) := by
  unfold Stream.memberStep View.memberStep?
  refine (hf.memberDeclaration hlo hj (not_isOpener_of_isCloser he.2)).bind ?_
  rintro found found' - (_ | ⟨hm, hn⟩)
  · obtain ⟨chs, hm, heq⟩ : ∃ chs, s.Makes erase chs _ ∧ _ := hf.stripMemberModifiers j
    have hle := s.le_stripMemberModifiers hi j
    refine .look heq (.ite (fun hne => ?_) fun _ => ?_)
    · have hlt : j < (s.stripMemberModifiers hi j).2 := hle.lt_of_ne (bne_iff_ne.1 hne).symm
      exact .ok ⟨hm, rfl, rfl, hlt, hp.mono hle, nofun⟩
    · simp -zeta only [code_view, is_bare]
      extract_lets properties? properties
      have hpr : s.Finds erase properties? properties := by
        simp only [properties?, properties]
        split
        · rename_i h
          obtain ⟨hco, hl⟩ := and_eq_true_iff.1 h
          -- A parameter list opens, so the class body does not end here.
          have hne : j + 1 ≠ hi := by
            rintro rfl
            have ho := isOpener_of_is hf.read hl (by decide)
            rw [not_isOpener_of_isCloser he.2] at ho
            cases ho
          exact hf.parameterProperties hlo (by omega) hco hl
        · exact ⟨[], rfl, .nil⟩
      obtain ⟨chs, hch, hm⟩ := hpr
      refine .look hch ((hf.tokenStep herase hlo hj (fun h : Frame.classBody = _ => nomatch h) hp).bind ?_)
      rintro stride move - hma
      exact .ok (hma.with_changes (hm.append hma.makes))
  · exact .ok ⟨hm, rfl, rfl, hn, hp.mono hn.le, nofun⟩

lemma step (hlo : lo ≤ j) (hj : j < hi)
    (he : frame = .classBody ∨ frame = .specifiers → hi < s.size ∧ (s.tok hi).isCloser) (hp : s.Recalls j p q) :
    s.Follows erase (s.Matches erase j hi) (s.view.step? erase? frame p hi j) (s.step erase frame q hi j) := by
  obtain ⟨rfl, hl⟩ := hp
  have hp {p' : Progress} (hl' : p'.last = p.last) : s.Recalls j p' (s.recalled p') := ⟨rfl, hl' ▸ hl⟩
  unfold Stream.step View.step?
  refine .look (tok?_view (hj.trans_le hf.le_size)) ?_
  simp only [code_view, isAny_bare, startsStatement_bare, heritage_recalled, last_recalled]
  refine .ite (fun _ => (hf.heritageStep hlo hj (hp rfl)).follows) fun _ => .ite (fun h => .ite (fun _ => ?_) fun hfr => ?_) fun _ =>
    hf.tokenStep herase hlo hj (fun h => he (.inr h)) (hp rfl)
  · refine (hf.declaration herase hlo hj).bind ?_
    rintro found found' - (_ | ⟨hm, hn⟩)
    · exact hf.tokenStep herase hlo hj (fun h => he (.inr h)) (hp rfl)
    · exact .ok ⟨hm, rfl, rfl, hn, ⟨rfl, ((hp rfl).mono hn.le).last⟩, nofun⟩
  · refine hf.memberStep herase hlo hj (he ?_) (hp rfl)
    simp_all

lemma scan (hlo : lo ≤ j)
    (he : frame = .classBody ∨ frame = .specifiers → hi < s.size ∧ (s.tok hi).isCloser) (hp : s.Recalls j p q) :
    s.Follows erase (s.Makes erase) (s.view.scan? erase? frame p hi j) (s.scan erase frame q hi j) := by
  induction hn : hi - j using Nat.strong_induction_on generalizing lo hi j frame p q with
  | _ n ih =>
    rw [View.scan?, Stream.scan]
    by_cases hj : j < hi
    · rw [if_pos hj, if_pos hj]
      refine (hf.step herase hlo hj he hp).bind ?_
      rintro stride move - hm
      rw [hm.inner, hm.next, max_eq_left hm.lt]
      extract_lets rest rest'
      have hr (within : List Change) (edits : List Edit) (hw : s.Makes erase within edits) :
          s.Follows erase (s.Makes erase) (rest within) (rest' edits) := by
        have hl := hm.lt
        simp only [rest, if_pos hl]
        refine (ih _ (by omega) hf (show lo ≤ move.next by omega) he hm.progress rfl).bind ?_
        rintro chs edits' - hma
        exact .ok ((hm.makes.append hw).append hma)
      cases hin : move.inner with
      | none => exact hr [] [] .nil
      | some inner =>
        obtain ⟨hl, hle, -, hfr, hcl⟩ := hm.group inner hin
        simp only [hl, hle, and_self, if_true, min_eq_left, max_eq_left (show j + 1 ≤ inner.lo from hl)]
        refine (ih _ (by omega) hfr le_rfl (fun _ => hcl) (.start _) rfl).bind ?_
        rintro chs edits - hma
        exact hr chs edits hma
    · rw [if_neg hj, if_neg hj]
      exact .ok .nil

end Embedded

end Framed

variable (s) in
/-- A walk stands in a frame, behind the token that it remembers. -/
structure Placed (c : Site) : Prop where
  framed : s.Framed c.pos c.hi
  closed : c.frame = .classBody ∨ c.frame = .specifiers → c.hi < s.size ∧ (s.tok c.hi).isCloser = true
  recalls : ∃ p, s.Recalls c.pos p c.progress

lemma placed_start {source : String} (hs : Stream.read source = .ok s) : s.Placed s.start :=
  ⟨framed_of_size_le hs le_rfl (Nat.le_succ _) 0, nofun, {}, .start 0⟩

namespace Placed

variable (hc : s.Placed c)

include hc

lemma last {t : Token} (ht : c.progress.last = some t) : ∃ i < c.pos, t = s.tok i := by
  obtain ⟨p, heq, hl⟩ := hc.recalls
  rw [heq, last_recalled] at ht
  obtain ⟨u, hu, rfl⟩ := map_eq_some_iff.1 ht
  obtain ⟨i, hlt, -, rfl⟩ := hl u hu
  exact ⟨i, hlt, rfl⟩

lemma exists_matches (ho : c.Open) (h : s.stepAt erase c = .ok move) :
    ∃ stride, s.Matches erase c.pos c.hi stride move := by
  obtain ⟨p, hp⟩ := hc.recalls
  have hs : s.Follows erase _ _ _ := hc.framed.step (fun e _ => rfl) le_rfl ho hc.closed hp
  rw [← stepAt, h] at hs
  generalize s.view.step? _ _ _ _ _ = stride? at hs
  cases hs with
  | ok hm => exact ⟨_, hm⟩

lemma leads (h : s.Leads erase c d) : s.Placed d := by
  cases h with
  | inside ho hs hin =>
    obtain ⟨stride, hm⟩ := hc.exists_matches ho hs
    obtain ⟨hl, hh, -, hfr, hcl⟩ := hm.group _ hin
    simp only [Site.inside, min_eq_left hh, max_eq_left (Nat.succ_le_of_lt hl)]
    exact ⟨hfr, fun _ => hcl, {}, .start _⟩
  | onward ho hs =>
    obtain ⟨stride, hm⟩ := hc.exists_matches ho hs
    simp only [Site.onward, max_eq_left (Nat.succ_le_of_lt hm.lt)]
    exact ⟨hc.framed.mono hm.lt.le, hc.closed, _, hm.progress⟩

lemma reaches (h : s.Reaches erase c d) : s.Placed d := h.induction (fun _ _ hl ha => ha.leads hl) hc

lemma called (h : s.scanAt erase c = .ok edits) : ∀ e ∈ edits, s.Called erase e := by
  obtain ⟨p, hp⟩ := hc.recalls
  have hs : s.Follows erase _ _ _ := hc.framed.scan (fun e _ => rfl) le_rfl hc.closed hp
  rw [← scanAt, h] at hs
  generalize s.view.scan? _ _ _ _ _ = changes? at hs
  cases hs with
  | ok hm => exact hm.called

end Placed

lemma Visits.bounds (h : s.Visits erase c visits) : ∀ v ∈ visits, c.pos ≤ v.1.pos ∧ v.1.pos < c.hi := by
  induction h with
  | done hcl => exact fun v hv => nomatch hv
  | @leaf c move r ho _ _ _ ih =>
    refine List.forall_mem_cons.2 ⟨⟨le_refl _, ho⟩, fun v hv => ?_⟩
    have hv := ih v hv
    simp only [Site.onward] at hv
    omega
  | @group c move inner within r ho _ _ _ _ ihw ihr =>
    refine List.forall_mem_cons.2 ⟨⟨le_refl _, ho⟩, fun v hv => ?_⟩
    rcases List.mem_append.1 hv with hv | hv
    · have hv := ihw v hv
      simp only [Site.inside] at hv
      omega
    · have hv := ihr v hv
      simp only [Site.onward] at hv
      omega

lemma Visits.pairwise (h : s.Visits erase c visits) (hc : s.Placed c) : visits.Pairwise fun v w => v.1.pos < w.1.pos := by
  induction h with
  | done hcl => exact .nil
  | leaf ho hs hin hr ih =>
    refine List.pairwise_cons.2 ⟨fun v hv => ?_, ih (hc.leads (.onward ho hs))⟩
    have hb := hr.bounds v hv
    simp only [Site.onward] at hb ⊢
    omega
  | group ho hs hin hwi hr ihw ihr =>
    refine List.pairwise_cons.2 ⟨fun v hv => ?_, List.pairwise_append.2
      ⟨ihw (hc.leads (.inside ho hs hin)), ihr (hc.leads (.onward ho hs)), fun v hv w hw => ?_⟩⟩
    · rcases List.mem_append.1 hv with hv | hv
      · have hb := hwi.bounds v hv
        simp only [Site.inside] at hb ⊢
        omega
      · have hb := hr.bounds v hv
        simp only [Site.onward] at hb ⊢
        omega
    · obtain ⟨stride, hm⟩ := hc.exists_matches ho hs
      have hn := (hm.group _ hin).2.2.1
      have hv := hwi.bounds v hv
      have hw := hr.bounds w hw
      simp only [Site.inside] at hv
      simp only [Site.onward] at hw
      omega

end Stream

end CustomElement.Script
