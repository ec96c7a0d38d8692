import CustomElement.Proofs.Script.Frames
import CustomElement.Proofs.Script.TypeStops
import CustomElement.Proofs.Script.View

/-!
# What a view shows

A view of a stream that was read shows what is there (`tok?_view`, `indent?_view`, `between?_view`).
-/

namespace CustomElement.Script

open Text

def lineIndent (before : List Char) : String :=
  String.ofList (((before.reverse.takeWhile (· != '\n')).reverse).takeWhile isBlank)

namespace Stream

section View

variable (s : Stream)

def seen (j : Nat) : Token := { s.tok j with start := j }

def bare : Stream := ⟨"", s.tokens.mapIdx fun j t => { t with start := j }, s.partners, s.breaks⟩

def view : View where
  code := s.bare
  meets i j := (s.tok i).stop == (s.tok j).start
  indent? j := do
    let t ← s.tokens[j]?
    return lineIndent (← slice? s.source.toList 0 t.start)
  between? i j := do
    let t ← s.tokens[i]?
    let u ← s.tokens[j]?
    return String.ofList (← slice? s.source.toList t.start u.stop)

end View

variable {s : Stream} {hi j k lo m p : Nat}

@[simp] lemma kind_seen (j : Nat) : (s.seen j).kind = (s.tok j).kind := rfl

@[simp] lemma text_seen (j : Nat) : (s.seen j).text = (s.tok j).text := rfl

@[simp] lemma isOpener_seen (j : Nat) : (s.seen j).isOpener = (s.tok j).isOpener := rfl

lemma tok?_view (h : j < s.size) : s.view.tok? j = some (s.seen j) := by
  have hg := getElem?_tokens h
  simp [View.tok?, view, bare, hg, seen]

lemma indent?_view (hs : Stream.read s.source = .ok s) (h : j < s.size) :
    s.view.indent? j = some (s.indentAt (s.tok j).start) := by
  have hz : IsBoundary s.source.toList 0 := ⟨[], _, rfl, rfl⟩
  have hsl := hz.slice? (boundary_start hs h) (Nat.zero_le _)
  have hd : dropBytes 0 s.source.toList = s.source.toList := dropBytes_byteLength [] _
  have hg := getElem?_tokens h
  simp [view, hg, hsl, hd, lineIndent, indentAt]

lemma between?_view (hs : Stream.read s.source = .ok s) (hl : j ≤ k) (h : k < s.size) : s.view.between? j k =
    some (String.ofList (takeBytes ((s.tok k).stop - (s.tok j).start) (dropBytes (s.tok j).start s.source.toList))) := by
  have hj : j < s.size := by omega
  have hsl := (boundary_start hs hj).slice? (boundary_stop hs h) (start_lt_stop_of_le hs hj hl).le
  have hg := getElem?_tokens h
  have hg' := getElem?_tokens hj
  simp [view, hg, hg', hsl]

@[simp] lemma kind_bare (j : Nat) : (s.bare.tok j).kind = (s.tok j).kind := by
  by_cases h : j < s.tokens.size <;> simp [bare, tok, Array.getD, h]

@[simp] lemma text_bare (j : Nat) : (s.bare.tok j).text = (s.tok j).text := by
  by_cases h : j < s.tokens.size <;> simp [bare, tok, Array.getD, h]

@[simp] lemma code_view : s.view.code = s.bare := rfl

@[simp] lemma is_bare (j : Nat) (text : String) : s.bare.is j text = s.is j text := by simp [is]

@[simp] lemma isAny_bare (j : Nat) (texts : List String) : s.bare.isAny j texts = s.isAny j texts := by
  rw [isAny, funext (is_bare j), isAny]

@[simp] lemma isWord_bare (j : Nat) : s.bare.isWord j = s.isWord j := by simp [isWord]

@[simp] lemma breakBefore_bare (j : Nat) : s.bare.breakBefore j = s.breakBefore j := rfl

@[simp] lemma typeStarts_bare (j : Nat) : s.bare.typeStarts j = s.typeStarts j := by simp [typeStarts]

@[simp] lemma memberNameLike_bare (j : Nat) : s.bare.memberNameLike j = s.memberNameLike j := by simp [memberNameLike]

@[simp] lemma pastSemicolon_bare (hi m : Nat) : s.bare.pastSemicolon hi m = s.pastSemicolon hi m := by
  simp [pastSemicolon]

@[simp] lemma skipTypeOperators_bare (hi j : Nat) : s.bare.skipTypeOperators hi j = s.skipTypeOperators hi j := by
  fun_induction s.skipTypeOperators hi j with
  | case1 j hm k hk heq ih => rw [skipTypeOperators, if_pos (by simpa using hm), ih, heq]
  | case2 j hn => rw [skipTypeOperators, if_neg (by simpa using hn)]

@[simp] lemma operandStart_bare (hi j : Nat) : s.bare.operandStart hi j = s.operandStart hi j := by
  simp [operandStart]

@[simp] lemma dottedEnd_bare (hi m : Nat) : s.bare.dottedEnd hi m = s.dottedEnd hi m := by
  fun_induction s.dottedEnd hi m with
  | case1 m hm k hk heq ih => rw [dottedEnd, if_pos (by simpa using hm), ih, heq]
  | case2 m hn => rw [dottedEnd, if_neg (by simpa using hn)]

@[simp] lemma skipMemberModifiers_bare (hi m : Nat) (dropped : Bool) :
    s.bare.skipMemberModifiers hi m dropped = s.skipMemberModifiers hi m dropped := by
  fun_induction s.skipMemberModifiers hi m dropped with
  | case1 m dropped hm ih => rw [skipMemberModifiers, if_pos (by simpa using hm), isAny_bare, ih]
  | case2 m dropped hn => rw [skipMemberModifiers, if_neg (by simpa using hn)]

@[simp] lemma skipAccessModifiers_bare (hi k : Nat) : s.bare.skipAccessModifiers hi k = s.skipAccessModifiers hi k := by
  fun_induction s.skipAccessModifiers hi k with
  | case1 k hm ih => rw [skipAccessModifiers, if_pos (by simpa using hm), ih]
  | case2 k hn => rw [skipAccessModifiers, if_neg (by simpa using hn)]

section Ends

variable (s)

lemma lt_statementEndFrom {st : Nat} (hk : k < hi) (hs : k ≤ st) (hm : st ≤ m) : k < s.statementEndFrom hi st m := by
  fun_induction statementEndFrom s hi st m with
  | case1 m hl he =>
    simp only [and_eq_true, decide_eq_true_eq] at he
    omega
  | case2 m hl he hma => omega
  | case3 m hl he hma ih =>
    have hsk := s.lt_skip hi m
    exact ih (by omega)
  | case4 m hl => exact hk

lemma lt_statementEnd {start : Nat} (hk : k < hi) (hs : k ≤ start) : k < s.statementEnd hi start :=
  s.lt_statementEndFrom hk hs le_rfl

lemma lt_ambientEndFrom {st : Nat} (hk : k < hi) (hs : k ≤ st) (hm : st ≤ m) : k < s.ambientEndFrom hi st m := by
  fun_induction ambientEndFrom s hi st m with
  | case1 m hl he =>
    simp only [and_eq_true, decide_eq_true_eq] at he
    omega
  | case2 m hl he hma => omega
  | case3 m hl he hma hb =>
    have hc := s.le_close hi m
    omega
  | case4 m hl he hma hb ih =>
    have hsk := s.lt_skip hi m
    exact ih (by omega)
  | case5 m hl => exact hk

lemma le_interfaceBody {angle body : Nat} (h : s.interfaceBody hi angle m = some body) : m ≤ body := by
  fun_induction interfaceBody s hi angle m with
  | case1 angle m hl ho ih | case2 angle m hl ho hc ih => exact (Nat.le_succ m).trans (ih h)
  | case3 angle m hl ho hc hb => exact (some.inj h).le
  | case4 angle m hl ho hc hb ih => exact (s.lt_skip hi m).le.trans (ih h)
  | case5 angle m hl => cases h

lemma le_pastSemicolon (hi m : Nat) : m ≤ s.pastSemicolon hi m := by
  unfold pastSemicolon
  split <;> omega

lemma le_implementsEnd (hi m : Nat) : m ≤ s.implementsEnd hi m := by
  fun_induction implementsEnd s hi m with
  | case1 m hl angle han ha ih => omega
  | case2 m hl ha ih => omega
  | case3 m hl => exact le_rfl

lemma lt_bodilessEnd {stop : Nat} (h : s.bodilessEnd hi m = .ok (some stop)) : m < stop := by
  unfold bodilessEnd at h
  extract_lets listEnd jp at h
  have hc : m < listEnd := Nat.lt_succ_of_le (s.le_close hi m)
  have hj : ∀ aft, listEnd ≤ aft → jp aft = .ok (some stop) → m < stop := by
    intro aft hl hs
    have hp := s.le_pastSemicolon hi aft
    simp only [jp] at hs
    split at hs
    · cases hs
    · obtain rfl := some.inj (ok.inj hs)
      omega
  split at h
  · obtain ⟨aft, ha, h⟩ := bind_eq_ok.1 h
    obtain ⟨⟨k, hk⟩, -, rfl⟩ := map_eq_ok.1 ha
    exact hj k (by omega) h
  · exact hj listEnd le_rfl h

lemma le_skipMemberModifiers (hi m : Nat) (dropped : Bool) : m ≤ (s.skipMemberModifiers hi m dropped).1 := by
  fun_induction skipMemberModifiers s hi m dropped with
  | case1 m dropped hm ih => omega
  | case2 m dropped hm => exact le_rfl

lemma le_stripMemberModifiers (hi m : Nat) : m ≤ (s.stripMemberModifiers hi m).2 := by
  fun_induction stripMemberModifiers s hi m with
  | case1 m hm t ha es next hr ih =>
    rw [hr] at ih
    exact Nat.le_of_succ_le ih
  | case2 m hm t ha ho ih => exact Nat.le_of_succ_le ih
  | case3 m hm t ha ho => exact le_rfl
  | case4 m hm => exact le_rfl

end Ends

namespace Framed

variable (hf : s.Framed lo hi)

include hf

lemma close?_view (hl : lo ≤ m) (hlt : m < hi) (ho : (s.tok m).isOpener) : s.view.close? m = some (s.close hi m) := by
  rw [View.close?, code_view, bare, (hf.close hl hlt ho).1]
  rfl

lemma skip?_view (hlo : lo ≤ m) (hl : m < hi) : s.view.skip? m = some (s.skip hi m) := by
  have hs : m < s.size := hl.trans_le hf.le_size
  rw [View.skip?, tok?_view hs, skip]
  by_cases ho : (s.tok m).isOpener
  · rw [if_pos ho, hf.close?_view hlo hl ho]
    exact if_pos ho
  · rw [if_neg ho]
    exact if_neg ho

lemma skip_le (hl : lo ≤ m) (hlt : m < hi) : s.skip hi m ≤ s.size := by
  have hle := hf.le_size
  unfold skip
  split
  · rename_i ho
    have hc := (hf.close hl hlt ho).2.2
    omega
  · omega

lemma statementEndFrom (hlo : lo ≤ m) (st : Nat) :
    s.view.endFrom? false hi st m = some (s.statementEndFrom hi st m) ∧ s.statementEndFrom hi st m ≤ s.size := by
  have hle := hf.le_size
  fun_induction s.statementEndFrom hi st m with
  | case1 m hl he =>
    rw [View.endFrom?, if_pos hl, tok?_view (by omega), tok?_view (by omega)]
    exact ⟨if_pos he, by omega⟩
  | case2 m hl he hm =>
    rw [View.endFrom?, if_pos hl, tok?_view (by omega), tok?_view (by omega)]
    exact ⟨(if_neg he).trans (if_pos (by rwa [code_view, is_bare])), by omega⟩
  | case3 m hl he hm ih =>
    have hs := s.lt_skip hi m
    obtain ⟨ih, hb⟩ := ih (by omega)
    refine ⟨?_, hb⟩
    rw [View.endFrom?, if_pos hl, tok?_view (by omega), tok?_view (by omega)]
    refine (if_neg he).trans ((if_neg (by rwa [code_view, is_bare])).trans ?_)
    rw [hf.skip?_view hlo hl]
    exact (if_pos hs).trans ih
  | case4 m hl => exact ⟨by rw [View.endFrom?, if_neg hl], hle⟩

lemma ambientEndFrom (hlo : lo ≤ m) (st : Nat) :
    s.view.endFrom? true hi st m = some (s.ambientEndFrom hi st m) ∧ s.ambientEndFrom hi st m ≤ s.size := by
  have hle := hf.le_size
  fun_induction s.ambientEndFrom hi st m with
  | case1 m hl he =>
    rw [View.endFrom?, if_pos hl, tok?_view (by omega), tok?_view (by omega)]
    exact ⟨if_pos he, by omega⟩
  | case2 m hl he hm =>
    rw [View.endFrom?, if_pos hl, tok?_view (by omega), tok?_view (by omega)]
    exact ⟨(if_neg he).trans (if_pos (by rwa [code_view, is_bare])), by omega⟩
  | case3 m hl he hm hb =>
    have ho := isOpener_of_is hf.read hb (by decide)
    have hc := (hf.close hlo hl ho).2.2
    refine ⟨?_, by omega⟩
    rw [View.endFrom?, if_pos hl, tok?_view (by omega), tok?_view (by omega)]
    refine (if_neg he).trans ((if_neg (by rwa [code_view, is_bare])).trans ((if_pos (by simpa using hb)).trans ?_))
    rw [hf.close?_view hlo hl ho]
    rfl
  | case4 m hl he hm hb ih =>
    have hs := s.lt_skip hi m
    obtain ⟨ih, hbo⟩ := ih (by omega)
    refine ⟨?_, hbo⟩
    rw [View.endFrom?, if_pos hl, tok?_view (by omega), tok?_view (by omega)]
    refine (if_neg he).trans ((if_neg (by rwa [code_view, is_bare])).trans ((if_neg (by simpa using hb)).trans ?_))
    rw [hf.skip?_view hlo hl]
    exact (if_pos hs).trans ih
  | case5 m hl => exact ⟨by rw [View.endFrom?, if_neg hl], hle⟩

lemma interfaceBody (hlo : lo ≤ m) (angle : Nat) : s.view.interfaceBody? hi angle m = some (s.interfaceBody hi angle m) ∧
      ∀ body, s.interfaceBody hi angle m = some body → body < hi ∧ s.is body openBrace := by
  fun_induction s.interfaceBody hi angle m with
  | case1 angle m hl ho ih =>
    obtain ⟨ih, hbo⟩ := ih (by omega)
    rw [View.interfaceBody?, if_pos hl, code_view, is_bare, if_pos ho, ih]
    exact ⟨rfl, hbo⟩
  | case2 angle m hl ho hc ih =>
    obtain ⟨ih, hbo⟩ := ih (by omega)
    rw [View.interfaceBody?, if_pos hl, code_view, is_bare, if_neg ho, is_bare, if_pos hc, ih]
    exact ⟨rfl, hbo⟩
  | case3 angle m hl ho hc hb =>
    rw [View.interfaceBody?, if_pos hl, code_view, is_bare, if_neg ho, is_bare, if_neg hc, is_bare, if_pos hb]
    refine ⟨rfl, fun body h => ?_⟩
    cases h
    exact ⟨hl, (and_eq_true_iff.1 hb).1⟩
  | case4 angle m hl ho hc hb ih =>
    have hs := s.lt_skip hi m
    obtain ⟨ih, hbo⟩ := ih (by omega)
    rw [View.interfaceBody?, if_pos hl, code_view, is_bare, if_neg ho, is_bare, if_neg hc, is_bare, if_neg hb,
      hf.skip?_view hlo hl]
    exact ⟨(if_pos hs).trans ih, hbo⟩
  | case5 angle m he =>
    rw [View.interfaceBody?, if_neg he]
    exact ⟨rfl, nofun⟩

lemma superCallFrom (hlo : lo ≤ m) (fst : Nat) : s.view.superCall? fst hi m = some (s.superCallFrom fst hi m) ∧
      ∀ call, s.superCallFrom fst hi m = some call → m ≤ call ∧ call < hi := by
  fun_induction s.superCallFrom fst hi m with
  | case1 m hl hc =>
    rw [View.superCall?, if_pos hl, if_pos (by simpa only [code_view, is_bare, isAny_bare, breakBefore_bare] using hc)]
    refine ⟨rfl, fun call h => ?_⟩
    cases h
    exact ⟨le_rfl, hl⟩
  | case2 m hl hc ih =>
    have hs := s.lt_skip hi m
    obtain ⟨ih, hb⟩ := ih (by omega)
    rw [View.superCall?, if_pos hl, if_neg (by simpa only [code_view, is_bare, isAny_bare, breakBefore_bare] using hc),
      hf.skip?_view hlo hl]
    exact ⟨(if_pos hs).trans ih, fun call h => ⟨(hb call h).1.trans' hs.le, (hb call h).2⟩⟩
  | case3 m he =>
    rw [View.superCall?, if_neg he]
    exact ⟨rfl, nofun⟩

omit hf in
lemma skipAccessModifiers_lt (h : k < hi) : s.skipAccessModifiers hi k < hi := by
  fun_induction s.skipAccessModifiers hi k with
  | case1 k hm ih => exact ih hm.1
  | case2 k hn => exact h

lemma propertyNamesFrom (hlo : lo ≤ m) (atParameter : Bool) :
    s.view.propertyNames? hi m atParameter = some (s.propertyNamesFrom hi m atParameter) := by
  fun_induction s.propertyNamesFrom hi m atParameter with
  | case1 m atParameter hl name r hn ih =>
    have hs := s.lt_skip hi m
    have hna := tok?_view ((skipAccessModifiers_lt (s := s) hl).trans_le hf.le_size)
    rw [View.propertyNames?, if_pos hl, hf.skip?_view hlo hl]
    refine (if_pos hs).trans ?_
    rw [code_view, is_bare, ih (by omega), skipAccessModifiers_bare, hna]
    exact if_pos hn
  | case2 m atParameter hl name r hn ih =>
    have hs := s.lt_skip hi m
    rw [View.propertyNames?, if_pos hl, hf.skip?_view hlo hl]
    refine (if_pos hs).trans ?_
    rw [code_view, is_bare, ih (by omega), skipAccessModifiers_bare]
    exact if_neg hn
  | case3 m atParameter he => rw [View.propertyNames?, if_neg he]

lemma initializerEnd (hl : lo ≤ m) (hm : m ≤ s.size) :
    s.view.initializerEnd? hi m = some (s.initializerEnd hi m) ∧ m ≤ s.initializerEnd hi m ∧ s.initializerEnd hi m ≤ s.size := by
  fun_induction s.initializerEnd hi m with
  | case1 m hmo ih =>
    have hs := s.lt_skip hi m
    obtain ⟨ih, hle, hb⟩ := ih (by omega) (hf.skip_le hl hmo.1)
    rw [View.initializerEnd?, if_pos (by simpa only [code_view, is_bare] using hmo), hf.skip?_view hl hmo.1]
    exact ⟨(if_pos hs).trans ih, by omega, hb⟩
  | case2 m hn =>
    rw [View.initializerEnd?, if_neg (by simpa only [code_view, is_bare] using hn)]
    exact ⟨rfl, le_rfl, hm⟩

lemma angleStop (hlo : lo ≤ m) (d : Nat) : s.view.angleEnd? hi d m = some (s.angleStop hi d m) ∧
    ∀ angle, s.angleStop hi d m = some angle → m ≤ angle ∧ angle < hi := by
  induction hn : hi - m using Nat.strong_induction_on generalizing d m with
  | _ n ih =>
    rw [View.angleEnd?, angleStop_eq]
    by_cases hl : m < hi
    · have hne (k d : Nat) (hk : m < k) : s.view.angleEnd? hi d k = some (s.angleStop hi d k) ∧
          ∀ angle, s.angleStop hi d k = some angle → m ≤ angle ∧ angle < hi := by
        obtain ⟨heq, hb⟩ := ih (hi - k) (by omega) (show lo ≤ k by omega) d rfl
        exact ⟨heq, fun angle h => ⟨hk.le.trans (hb angle h).1, (hb angle h).2⟩⟩
      rw [if_pos hl, if_pos hl, tok?_view (hl.trans_le hf.le_size)]
      change (if (s.tok m).isPunct "<" = true then _ else if (s.tok m).isPunct ">" = true then _ else
        if (s.tok m).isOpener then _ else
        if ((s.tok m).kind == .punct && notInTypes.contains (s.tok m).text) then _ else _) = _ ∧ _
      split
      · exact hne _ _ (lt_succ_self m)
      split
      · split
        · refine ⟨rfl, fun angle h => ?_⟩
          cases h
          exact ⟨le_rfl, hl⟩
        · exact hne _ _ (lt_succ_self m)
      split
      · rename_i ho
        have hc := (hf.close hlo hl ho).2.1
        obtain ⟨heq, hb⟩ := hne (s.close hi m + 1) d (by omega)
        rw [hf.close?_view hlo hl ho]
        exact ⟨(if_pos hc).trans heq, hb⟩
      split
      · exact ⟨rfl, nofun⟩
      · exact hne _ _ (lt_succ_self m)
    · rw [if_neg hl, if_neg hl]
      exact ⟨rfl, nofun⟩

lemma angleAt (hl : lo ≤ m) (sought : Bool) : s.view.angleAt? sought hi m =
    some ((if sought then s.angleEnd hi m else none).map Subtype.val) := by
  rw [View.angleAt?, (hf.angleStop hl 0).1]
  split <;> rfl

lemma implementsEnd (hl : lo ≤ m) : s.view.implementsEnd? hi m = some (s.implementsEnd hi m) := by
  fun_induction s.implementsEnd hi m with
  | case1 m hm angle hle heq ih =>
    rw [View.implementsEnd?, if_pos (by simpa only [code_view, is_bare] using hm), code_view, is_bare, hf.angleAt hl,
      dite_eq_ite.symm.trans heq]
    exact (if_pos hle).trans (ih (by omega))
  | case2 m hm heq ih =>
    rw [View.implementsEnd?, if_pos (by simpa only [code_view, is_bare] using hm), code_view, is_bare, hf.angleAt hl,
      dite_eq_ite.symm.trans heq]
    exact ih (by omega)
  | case3 m hn => rw [View.implementsEnd?, if_neg (by simpa only [code_view, is_bare] using hn)]

lemma suffixStop (hl : lo ≤ m) (hm : m ≤ s.size) :
    s.view.suffixEnd? hi m = some (s.suffixStop hi m) ∧ m ≤ s.suffixStop hi m ∧ s.suffixStop hi m ≤ s.size := by
  induction hn : hi - m using Nat.strong_induction_on generalizing m with
  | _ n ih =>
    rw [View.suffixEnd?, suffixStop_eq]
    by_cases hb : m < hi ∧ s.is m "[" ∧ !s.breakBefore m
    · have ho := isOpener_of_is hf.read hb.2.1 (by decide)
      obtain ⟨-, hc, hs⟩ := hf.close hl hb.1 ho
      obtain ⟨heq, hle, hbo⟩ := ih _ (by omega) (show lo ≤ s.close hi m + 1 by omega) hs rfl
      rw [if_pos (by simpa only [code_view, is_bare, breakBefore_bare] using hb), if_pos hb, hf.close?_view hl hb.1 ho]
      exact ⟨(if_pos hc).trans heq, by omega, hbo⟩
    · rw [if_neg (by simpa only [code_view, is_bare, breakBefore_bare] using hb), if_neg hb]
      exact ⟨rfl, le_rfl, hm⟩

end Framed

def faultOf {α : Type} : Except Fault α → Fault
  | .error fault => fault
  | .ok _ => .notPlain

variable (s) (erase : String → Except Fault String) in
def report : Snag → Fault
  | .own j construct => s.unsupported j construct
  | .dividing template => faultOf (templateSubstitutions template)
  | .erasing expr => faultOf (erase expr)
  | .reading expr => faultOf (tokenize expr)

variable (s) in
def Fair : Snag → Prop
  | .erasing expr => expr.length + 3 ≤ s.source.length
  | _ => True

variable (s) (erase : String → Except Fault String) in
/-- A computation on the stream ends as the one on its view does, which is not lost. -/
inductive Follows {α β : Type} (R : α → β → Prop) : Checked α → Except Fault β → Prop
  | ok {a : α} {b : β} (h : R a b) : Follows R (pure a) (.ok b)
  | snag {snag : Snag} (h : s.Fair snag) : Follows R (throw snag) (.error (s.report erase snag))

variable {erase : String → Except Fault String}

namespace Follows

variable {α β γ δ : Type} {R : α → β → Prop} {Q : γ → δ → Prop} {x x' : Checked α} {y y' : Except Fault β}

lemma error {snag : Snag} {fault : Fault} (h : s.report erase snag = fault) (hfa : s.Fair snag) :
    s.Follows erase R (throw snag) (.error fault) := h ▸ .snag hfa

lemma own (j : Nat) (construct : String) : s.Follows erase R (throw (.own j construct)) (throw (s.unsupported j construct)) :=
  snag (show s.Fair (.own j construct) from trivial)

lemma exists_or (h : s.Follows erase R x y) :
    (∃ a b, x = pure a ∧ y = .ok b ∧ R a b) ∨ ∃ snag, s.Fair snag ∧ x = throw snag ∧ y = .error (s.report erase snag) := by
  cases h with
  | ok h => exact .inl ⟨_, _, rfl, rfl, h⟩
  | snag h => exact .inr ⟨_, h, rfl, rfl⟩

lemma eq_of_pure {a : α} (h : s.Follows erase R (pure a) y) : ∃ b, y = .ok b ∧ R a b := by
  rcases h.exists_or with ⟨a', b, ha, hb, h⟩ | ⟨snag, -, ha, -⟩
  · obtain rfl : a = a' := by injection (some.inj ha)
    exact ⟨b, hb, h⟩
  · cases ha

lemma eq_of_throw {snag : Snag} (h : s.Follows erase R (throw snag) y) : y = .error (s.report erase snag) := by
  rcases h.exists_or with ⟨a, b, ha, -⟩ | ⟨snag', -, ha, hy⟩
  · cases ha
  · obtain rfl : snag = snag' := by injection (some.inj ha)
    exact hy

lemma bind {f : α → Checked γ} {g : β → Except Fault δ} (h : s.Follows erase R x y)
    (hf : ∀ a b, y = .ok b → R a b → s.Follows erase Q (f a) (g b)) : s.Follows erase Q (x >>= f) (y >>= g) := by
  cases h with
  | ok h => exact hf _ _ rfl h
  | snag h => exact snag h

lemma map {f : α → γ} {g : β → δ} (h : s.Follows erase R x y) (hf : ∀ a b, R a b → Q (f a) (g b)) :
    s.Follows erase Q (f <$> x) (g <$> y) := by
  cases h with
  | ok h => exact ok (hf _ _ h)
  | snag h => exact snag h

lemma look {o : Option γ} {c : γ} {f : γ → Checked α} (ho : o = some c) (h : s.Follows erase R (f c) y) :
    s.Follows erase R (liftM o >>= f) y := by
  subst ho
  exact h

lemma found {o : Option α} {a : α} {b : β} (ho : o = some a) (h : R a b) : s.Follows erase R (liftM o) (.ok b) := by
  subst ho
  exact ok h

lemma ite {c : Prop} [Decidable c] (h : c → s.Follows erase R x y) (h' : ¬c → s.Follows erase R x' y') :
    s.Follows erase R (if c then x else x') (if c then y else y') := by
  by_cases hc : c
  · simpa only [if_pos hc] using h hc
  · simpa only [if_neg hc] using h' hc

end Follows

variable (s) in
def SameStop (lo a b : Nat) : Prop := a = b ∧ lo ≤ b ∧ b ≤ s.size

namespace Framed

variable {type? : Nat → Checked Nat} (hf : s.Framed lo hi)

include hf

lemma functionStop (hl : lo ≤ j) (ih : ∀ k, j < k → s.Follows erase (s.SameStop lo) (type? k) (s.typeStop hi k)) :
    s.Follows erase (s.SameStop lo) (s.view.functionEnd? type? hi j) (s.functionStop hi j) := by
  rw [functionStop_eq, View.functionEnd?]
  simp only [code_view, is_bare]
  refine .ite (fun h => ?_) fun _ => .own j _
  have ho := isOpener_of_is hf.read h.2 (by decide)
  have hc := (hf.close hl h.1 ho).2.1
  exact .look (hf.close?_view hl h.1 ho) (.ite (fun _ => ih _ (by omega)) fun _ => .own j _)

lemma argumentsStop (hl : lo ≤ m) (hm : m ≤ s.size) :
    s.Follows erase (s.SameStop lo) (s.view.argumentsEnd? hi m) (s.argumentsStop hi m) := by
  obtain ⟨heq, hb⟩ := hf.angleStop hl 0
  unfold Stream.argumentsStop View.argumentsEnd?
  simp only [code_view, is_bare, breakBefore_bare]
  refine .ite (fun _ => .look heq ?_) fun _ => .ok ⟨rfl, hl, hm⟩
  cases ha : s.angleStop hi 0 m with
  | none => exact .own m _
  | some angle =>
    obtain ⟨hle, hlt⟩ := hb angle ha
    exact .ok ⟨rfl, by omega, hlt.trans_le hf.le_size⟩

omit hf in
lemma dottedEnd_le (hm : m ≤ s.size) : (s.dottedEnd hi m).1 ≤ s.size := by
  fun_induction s.dottedEnd hi m with
  | case1 m hmo k hk heq ih =>
    have hw : m + 1 < s.size := lt_size_of_isWord hmo.2.2
    rw [heq] at ih
    exact ih hw
  | case2 m hn => exact hm

lemma primaryStop (hlo : lo ≤ j) (ih : j < hi → ∀ k, j < k → s.Follows erase (s.SameStop lo) (type? k) (s.typeStop hi k)) :
    s.Follows erase (s.SameStop lo) (s.view.primaryEnd? type? hi j) (s.primaryStop hi j) := by
  unfold Stream.primaryStop View.primaryEnd?
  refine .ite (fun hl => ?_) fun _ => .own j _
  have hs := hl.trans_le hf.le_size
  refine .look (tok?_view hs) ?_
  simp only [code_view, is_bare, breakBefore_bare, dottedEnd_bare, kind_bare, kind_seen, text_seen]
  cases hki : (s.tok j).kind with
  | punct =>
    have hc (ht : ["(", "[", openBrace].contains (s.tok j).text) :
        s.view.close? j = some (s.close hi j) ∧ j < s.close hi j ∧ s.close hi j < s.size := by
      have ho : (s.tok j).isOpener := by simpa [Token.isOpener, hki, or_assoc] using ht
      exact ⟨hf.close?_view hlo hl ho, (hf.close hlo hl ho).2⟩
    refine .ite (fun _ => ?_) fun _ => .ite (fun ht => ?_) fun _ => .ite (fun ht => ?_) fun _ =>
      .ite (fun hnu => .ok ⟨rfl, by omega, ?_⟩) fun _ => .own j _
    · obtain ⟨heq, hb⟩ := hf.angleStop hlo 0
      refine .look heq ?_
      cases ha : s.angleStop hi 0 j with
      | none => exact .own j _
      | some angle =>
        have hle := (hb angle ha).1
        exact hf.functionStop (by omega) fun k hk => ih hl k (by omega)
    · obtain ⟨heq, hl', hs'⟩ := hc (by simp [beq_iff_eq.1 ht])
      exact .look heq (.ite (fun _ => ih hl _ (by omega)) fun _ => .ok ⟨rfl, by omega, hs'⟩)
    · obtain ⟨heq, hl', hs'⟩ := hc (by simpa [or_comm] using Or.inr ht)
      exact .look heq (.ok ⟨rfl, by omega, hs'⟩)
    · exact lt_size_of_kind (by rw [beq_iff_eq.1 (and_eq_true_iff.1 hnu).2]; decide)
  | word =>
    have hd := (s.dottedEnd hi (j + 1)).2
    refine (hf.argumentsStop (hlo.trans (by omega)) (dottedEnd_le (show j + 1 ≤ s.size from hs))).bind ?_
    rintro n _ hn ⟨rfl, hlo', hle⟩
    have hle' := le_of_argumentsStop hn
    exact .ite (fun _ => ih hl _ (by omega)) fun _ => .ok ⟨rfl, hlo', hle⟩
  | string | number | template => exact .ok ⟨rfl, by omega, hs⟩
  | _ => exact .own j _

omit hf in
lemma branchesStop {checked : Nat} (ih : ∀ m, checked < m → s.Follows erase (s.SameStop lo) (type? m) (s.typeStop hi m)) (k : Nat) :
    s.Follows erase (s.SameStop lo) (s.view.branchesEnd? type? hi k checked) (s.branchesStop hi k checked) := by
  unfold Stream.branchesStop View.branchesEnd?
  simp only [code_view, is_bare]
  refine .ite (fun _ => (ih (checked + 1) (by omega)).bind ?_) fun _ => .own k _
  rintro yes _ hy ⟨rfl, -⟩
  have hl := lt_of_typeStop hy
  exact .ite (fun _ => ih (yes + 1) (by omega)) fun _ => .own k _

lemma operandStop (hl : lo ≤ j) (ih : j < hi → ∀ k, j < k → s.Follows erase (s.SameStop lo) (type? k) (s.typeStop hi k)) :
    s.Follows erase (s.SameStop lo) (s.view.operandEnd? type? hi j) (s.operandStop hi j) := by
  have hs := (s.operandStart hi j).2
  rw [operandStop_eq, View.operandEnd?, code_view, operandStart_bare]
  refine (hf.primaryStop (hl.trans hs) fun hlt k hk => ih (by omega) k (by omega)).bind ?_
  rintro m _ - ⟨rfl, hl', hle⟩
  obtain ⟨heq, hle', hb⟩ := hf.suffixStop hl' hle
  exact .found heq ⟨rfl, by omega, hb⟩

lemma tailStop (hlo : lo ≤ k) (hk : k ≤ s.size)
    (ih : k < hi → ∀ m, k < m → s.Follows erase (s.SameStop lo) (type? m) (s.typeStop hi m)) :
    s.Follows erase (s.SameStop lo) (s.view.tailEnd? type? hi k) (s.tailStop hi k) := by
  induction hn : hi - k using Nat.strong_induction_on generalizing k with
  | _ n ihn =>
    rw [View.tailEnd?, tailStop_eq]
    simp only [code_view, isAny_bare, is_bare, breakBefore_bare]
    refine .ite (fun hl => ?_) fun _ => .ok ⟨rfl, hlo, hk⟩
    have ho := hf.operandStop (show lo ≤ k + 1 by omega) fun _ m hm => ih hl m (by omega)
    have hr (m : Nat) (hkm : k < m) (hm : m ≤ s.size) :
        s.Follows erase (s.SameStop lo) (if k < m then s.view.tailEnd? type? hi m else .lost) (s.tailStop hi m) := by
      rw [if_pos hkm]
      exact ihn _ (by omega) (by omega) hm (fun _ m' hm' => ih hl m' (by omega)) rfl
    refine .ite (fun _ => ?_) fun _ => .ite (fun _ => ?_) fun _ => .ok ⟨rfl, hlo, hk⟩
    · refine ho.bind ?_
      rintro m _ hm ⟨rfl, -, hle⟩
      exact hr m (by have := (operandStop_settled hm).1; omega) hle
    · refine ho.bind ?_
      rintro checked _ hc ⟨rfl, -⟩
      have hl' := (operandStop_settled hc).1
      refine (branchesStop (fun m hm => ih hl m (by omega)) k).bind ?_
      rintro no _ hno ⟨rfl, -, hle⟩
      exact hr no (by have := lt_of_branchesStop hno; omega) hle

lemma typeStop (hl : lo ≤ j) : s.Follows erase (s.SameStop lo) (s.view.typeEnd? hi j) (s.typeStop hi j) := by
  induction hn : hi - j using Nat.strong_induction_on generalizing j with
  | _ n ihn =>
    rw [View.typeEnd?, typeStop_eq, code_view, isAny_bare]
    generalize ht : (fun k => if hi - k < hi - j then s.view.typeEnd? hi k else Checked.lost) = type?
    have ih (hlt : j < hi) (k : Nat) (hk : j < k) : s.Follows erase (s.SameStop lo) (type? k) (s.typeStop hi k) := by
      simp only [← ht]
      rw [if_pos (by omega)]
      exact ihn _ (by omega) (by omega) rfl
    generalize hfi : (if (decide (j < hi) && s.isAny j ["|", "&"]) then j + 1 else j) = first
    have hle : j ≤ first := by split at hfi <;> omega
    refine (hf.operandStop (hl.trans hle) fun hlt k hk => ih (by omega) k (by omega)).bind ?_
    rintro k _ hk ⟨rfl, hl', hs⟩
    have hlt := (operandStop_settled hk).1
    exact hf.tailStop hl' hs fun hlt' m hm => ih (by omega) m (by omega)

end Framed

end Stream

end CustomElement.Script
