import CustomElement.Proofs.Script.TypeForms

/-!
# Conditional types

Behind `extends` only an operand is read. So a conditional type is skipped when its bound is one, and refused when the
bound is a union or begins with a bar (`typeEnd_conditional`).
-/

namespace CustomElement.Script

open List Text

namespace TypeForm

variable {ts us : List Token} {mark : Token}

lemma append_union (h : TypeForm .union ts) (hm : mark.joinsTypes) (hu : TypeForm .union us) :
    TypeForm .union (ts ++ mark :: us) := by
  generalize hp : TypePart.union = part at h
  induction h with
  | single ho => exact .join ho hm hu
  | @join ts more mark' ho hm' hmo _ ih =>
    rw [append_assoc, cons_append]
    exact .join ho hm' (ih rfl)
  | _ => cases hp

lemma append_whole (h : TypeForm .whole ts) (hm : mark.joinsTypes) (hus : TypeForm .union us) :
    TypeForm .whole (ts ++ mark :: us) := by
  cases h with
  | plain hu => exact .plain (hu.append_union hm hus)
  | led hm' hu => exact .led hm' (hu.append_union hm hus)

lemma append_suffixes {sfx : List Node} (hsu : ∀ n ∈ sfx, n.Opens "[") {part : TypePart}
    (h : TypeForm part ts) (hpa : part ≠ .primary) : TypeForm part (ts ++ tokensOf sfx) := by
  induction h with
  | simple => exact absurd rfl hpa
  | function => exact absurd rfl hpa
  | @operand ops primary sfx' hop hp hsu' _ =>
    have ha : ∀ n ∈ sfx' ++ sfx, n.Opens "[" := fun n hn =>
      (mem_append.1 hn).elim (hsu' n) (hsu n)
    have ho := TypeForm.operand hop hp ha
    rwa [tokensOf_append, ← append_assoc, ← append_assoc, append_assoc ops] at ho
  | single ho ih => exact .single (ih nofun)
  | @join ts more mark ho hm hmo _ ih =>
    rw [append_assoc, cons_append]
    exact .join ho hm (ih nofun)
  | plain hu ih => exact .plain (ih nofun)
  | led hm hu ih => exact .led hm (ih nofun)

end TypeForm

namespace Stream

variable {s : Stream} {source : String} {hi j k : Nat} {ts : List Token}

/-- **An operand stops where it ends, or takes in all that follows**, as it ends with the result of a function type. -/
lemma operandStop_of_typeForm (hs : Stream.read source = .ok s) (h : TypeForm .operand ts) (hat : s.Holds j ts)
    (hle : j + ts.length ≤ hi) (hb : s.Unbroken j (j + ts.length)) (hc : s.Calm hi (j + ts.length)) :
    s.operandStop hi j = .ok (s.suffixStop hi (j + ts.length)) ∨
      s.operandStop hi j = s.tailStop hi (s.suffixStop hi (j + ts.length)) ∧
        ∀ mark us, mark.joinsTypes → TypeForm .union us → TypeForm .operand (ts ++ mark :: us) := by
  cases h with
  | @operand ops primary sfx ho hpr hsu =>
    have he : j + ops.length + primary.length + (tokensOf sfx).length = j + (ops ++ (primary ++ tokensOf sfx)).length := by
      simp only [length_append]
      omega
    rw [← he] at hle hb hc ⊢
    obtain ⟨hsk, hc', hsf⟩ := operandStop_parts hs ho hpr hsu hat hle hb hc
    have hb' := hb.mono (show j ≤ j + ops.length by omega)
      (show j + ops.length + primary.length ≤ _ by omega)
    rw [hsk, ← hsf]
    cases hpr with
    | simple hsi =>
      obtain ⟨hst, hso⟩ := primaryStop_simple hs hsi hat.right.left (by omega) hb' hc'
      left
      rw [operandStop_eq, hst, hso]
      rfl
    | @function mark parameters result n arrow hm hp hl ha hr =>
      have hpr : j + ops.length + mark.length + parameters.length + n.tokens.length + 1 + result.length =
          j + ops.length + (mark ++ (parameters ++ (n.tokens ++ arrow :: result))).length := by
        simp only [length_append, length_cons]
        omega
      rw [← hpr] at hle hb' hc' ⊢
      have hat' := hat.right.left
      have hst : (s.operandStart hi (j + ops.length)).1 = j + ops.length + mark.length :=
        operandStart_function hm hp hl hat' (by omega)
      have hre := partStop_of_typeForm hs hr hat'.right.right.right.tail (by omega)
        (hb'.mono (by omega) le_rfl) hc'
      refine .inr ⟨operandStop_of_greedy hst ?_, fun mark' us hj hu => ?_⟩
      · rw [primaryStop_function hs hp hl ha hat'.right (by omega)]
        exact hre
      · have hr' := (hr.append_suffixes hsu nofun).append_whole hj hu
        have hop : TypeForm .operand (ops ++ (_ ++ tokensOf [])) := .operand ho (.function hm hp hl ha hr') nofun
        simpa using hop

lemma halts_of_text (h : [".", "<", "is", "=>", "[", "|", "&", "extends"].contains (s.tok k).text = false) :
    s.Halts hi k := by
  intro _
  rw [isAny_eq]
  exact isOneOf_eq_false h

lemma kind_of_joinsTypes {t : Token} (h : t.joinsTypes) : t.kind = .punct := by
  simp only [Token.joinsTypes, Token.isPunct, or_eq_true, and_eq_true, beq_iff_eq] at h
  exact h.elim And.left And.left

lemma operandStop_of_joinsTypes (h : (s.tok j).joinsTypes) (hl : j < hi) :
    s.operandStop hi j = .error (s.unsupported j (s.tok j).text) := by
  have ht := text_of_joinsTypes h
  have hn : ∀ x ∈ ["|", "&"], (typeOperators ++ ["abstract", "new"]).contains x = false := by decide
  rw [operandStop_eq, operandStart_eq_self (isOneOf_eq_false (hn _ ht)), primaryStop, if_pos hl, kind_of_joinsTypes h]
  rcases mem_pair.1 ht with ht | ht <;> rw [ht] <;> rfl

lemma branchesStop_of_joinsTypes (h : (s.tok j).joinsTypes) :
    s.branchesStop hi k j = .error (s.unsupported k "conditional type") := by
  have hn : ∀ x ∈ ["|", "&"], x ≠ "?" := by decide
  rw [branchesStop, if_neg]
  · rfl
  · simp only [is, and_eq_true, beq_iff_eq, not_and]
    exact fun _ _ => hn _ (text_of_joinsTypes h)

section Conditional

variable {checked bound yes no : List Token} {word question colon : Token} (hs : Stream.read source = .ok s)

include hs

lemma typeStop_checked (hc : TypeForm .operand checked) (hw : word.isWord "extends")
    (ha : s.Holds j (checked ++ word :: ts)) (hlt : j + checked.length < hi)
    (hbr : s.Unbroken j (j + checked.length)) (hl : s.breakBefore (j + checked.length) = false) :
    s.typeStop hi j = s.operandStop hi (j + checked.length + 1) >>= fun stop =>
      s.branchesStop hi (j + checked.length) stop >>= s.tailStop hi := by
  have hto : (s.tok (j + checked.length)).isWord "extends" := by
    rw [ha.right.tok_eq]
    exact hw
  have ht := text_of_isWord hto
  have hr := partStop_of_typeForm hs (.plain (.single hc)) ha.left hlt.le hbr
    (calm_of_tok rfl (by rw [ht]; decide))
  have hsu : s.suffixStop hi (j + checked.length) = j + checked.length := by
    rw [suffixStop_eq, if_neg]
    rintro ⟨-, hb, -⟩
    rw [is_eq_false_of_isWord hto (by decide)] at hb
    cases hb
  have hj : s.isAny (j + checked.length) ["|", "&"] = false := by
    rw [isAny_eq]
    exact isOneOf_eq_false (by rw [ht]; decide)
  refine hr.trans ?_
  rw [hsu, tailStop_eq, if_pos hlt, hj, is_of_isWord hto, hl]
  rfl

lemma branchesStop_of_typeForm (hq : question.isPunct "?") (hy : TypeForm .whole yes)
    (hc : colon.isPunct ":") (hn : TypeForm .whole no)
    (ha : s.Holds j (question :: (yes ++ colon :: no))) (hl : j + yes.length + no.length + 2 ≤ hi)
    (hb : s.Unbroken j (j + yes.length + no.length + 2)) (hh : s.Halts hi (j + yes.length + no.length + 2)) :
    s.branchesStop hi k j = .ok (j + yes.length + no.length + 2) := by
  have hq' : s.is j "?" := is_of_isPunct (by rw [ha.tok_eq]; exact hq)
  have hc' : (s.tok (j + 1 + yes.length)).isPunct ":" := by
    rw [ha.tail.right.tok_eq]
    exact hc
  have hr : s.typeStop hi (j + 1) = .ok (j + 1 + yes.length) :=
    typeStop_of_typeForm hs hy ha.tail.left (by omega) (hb.mono (by omega) (by omega))
      (halts_of_text (by rw [text_of_isPunct hc']; decide))
  have he : j + 1 + yes.length + 1 + no.length = j + yes.length + no.length + 2 := by omega
  have hr' : s.typeStop hi (j + 1 + yes.length + 1) = .ok (j + 1 + yes.length + 1 + no.length) :=
    typeStop_of_typeForm hs hn ha.tail.right.tail (by omega) (hb.mono (by omega) he.le)
      (by rw [he]; exact hh)
  rw [branchesStop, if_pos (by simp [hq']; omega), hr]
  change (if _ then _ else _) = _
  rw [if_pos (by simp [is_of_isPunct hc']; omega), hr', he]

/-- **A conditional type is skipped if its bound is an operand, and refused if it is not.** The fault names the
conditional type, or the bar with which the bound begins. -/
theorem typeEnd_conditional (hchecked : TypeForm .operand checked) (hword : word.isWord "extends" = true)
    (hbound : TypeForm .whole bound) (hquestion : question.isPunct "?" = true) (hyes : TypeForm .whole yes)
    (hcolon : colon.isPunct ":" = true) (hno : TypeForm .whole no)
    (hts : ts = checked ++ word :: (bound ++ question :: (yes ++ colon :: no))) (hat : s.Holds j ts)
    (hle : j + ts.length ≤ hi) (hline : ∀ i < j + ts.length, j < i → s.breakBefore i = false)
    (hend : s.TypeEndsAt hi (j + ts.length)) :
    (TypeForm .operand bound → Subtype.val <$> s.typeEnd hi j = .ok (j + ts.length)) ∧
      (¬ TypeForm .operand bound →
        Subtype.val <$> s.typeEnd hi j = .error (s.unsupported (j + checked.length) "conditional type") ∨
        ∃ mark rest, bound = mark :: rest ∧ mark.joinsTypes = true ∧
          Subtype.val <$> s.typeEnd hi j = .error (s.unsupported (j + checked.length + 1) mark.text)) := by
  subst hts
  set start := j + checked.length with hstart
  have hlength : start + 1 + bound.length + yes.length + no.length + 2 =
      j + (checked ++ word :: (bound ++ question :: (yes ++ colon :: no))).length := by
    simp only [List.length_append, List.length_cons]
    omega
  rw [← hlength] at hle hline hend ⊢
  have hbreaks : s.Unbroken j (start + 1 + bound.length + yes.length + no.length + 2) := fun i hlt hi' _ => hline i hlt hi'
  have hbound' : s.Holds (start + 1) bound := hat.right.tail.left
  have hbranches : s.Holds (start + 1 + bound.length) (question :: (yes ++ colon :: no)) := hat.right.tail.right
  have hpos : 0 < checked.length := by
    obtain ⟨t, rest, rfl, -⟩ := hchecked.exists_first nofun
    simp
  have hquestion' : (s.tok (start + 1 + bound.length)).isPunct "?" = true := by
    rw [hbranches.tok_eq]
    exact hquestion
  have hhalts : s.Halts hi (start + 1 + bound.length) := halts_of_text (by rw [text_of_isPunct hquestion']; decide)
  have hread : s.typeStop hi j = s.operandStop hi (start + 1) >>= fun stop =>
      s.branchesStop hi start stop >>= s.tailStop hi :=
    typeStop_checked hs hchecked hword hat (by omega) (hbreaks.mono le_rfl (by omega)) (hline _ (by omega) (by omega))
  change (_ → s.typeStop hi j = _) ∧ (_ → s.typeStop hi j = _ ∨ ∃ mark rest, _ ∧ _ ∧ s.typeStop hi j = _)
  rw [hread]
  constructor
  · intro hoperand
    have hstop : s.operandStop hi (start + 1) = .ok (start + 1 + bound.length) := by
      rcases operandStop_of_typeForm hs hoperand hbound' (by omega) (hbreaks.mono (by omega) (by omega)) hhalts.calm with
        hstop | ⟨hstop, -⟩
      · rw [hstop, hhalts.suffixStop_eq]
      · rw [hstop, hhalts.suffixStop_eq, hhalts.tailStop_eq]
    have hbranch := branchesStop_of_typeForm (k := start) hs hquestion hyes hcolon hno hbranches hle
      (hbreaks.mono (by omega) le_rfl) hend.halts
    rw [hstop]
    change s.branchesStop hi start (start + 1 + bound.length) >>= s.tailStop hi = _
    rw [hbranch]
    exact hend.halts.tailStop_eq
  · intro hnone
    cases hbound with
    | plain hunion =>
      cases hunion with
      | single hoperand => exact absurd hoperand hnone
      | @join operand more mark hoperand hmark hmore =>
        have hmark' : (s.tok (start + 1 + operand.length)).joinsTypes = true := by
          rw [hbound'.right.tok_eq]
          exact hmark
        have hlt : start + 1 + operand.length < start + 1 + (operand ++ mark :: more).length := by simp
        have hle' : start + 1 + operand.length ≤ hi := by omega
        rcases operandStop_of_typeForm hs hoperand hbound'.left hle' (hbreaks.mono (by omega) (by omega))
          (calm_of_joinsTypes hmark') with hstop | ⟨-, habsorbs⟩
        · left
          rw [hstop, suffixStop_of_joinsTypes hmark']
          exact congrArg (· >>= s.tailStop hi) (branchesStop_of_joinsTypes hmark')
        · exact absurd (habsorbs mark more hmark hmore) hnone
    | @led us mark hmark hunion =>
      right
      refine ⟨mark, us, rfl, hmark, ?_⟩
      have htok : s.tok (start + 1) = mark := hbound'.tok_eq
      rw [operandStop_of_joinsTypes (by rw [htok]; exact hmark) (by omega), htok]
      rfl

end Conditional

theorem typeEnd_conditional_union :
    ∃ s checked word bound question yes colon no, Stream.read "x: A extends B | C ? D : E;" = .ok s ∧
      TypeForm .operand checked ∧ word.isWord "extends" = true ∧ TypeForm .whole bound ∧ question.isPunct "?" = true ∧
      TypeForm .whole yes ∧ colon.isPunct ":" = true ∧ TypeForm .whole no ∧
      s.Holds 2 (checked ++ word :: (bound ++ question :: (yes ++ colon :: no))) ∧
      (∀ i < 11, 2 < i → s.breakBefore i = false) ∧ s.TypeEndsAt 12 11 ∧ ¬ TypeForm .operand bound ∧
      Subtype.val <$> s.typeEnd 12 2 = .error (s.unsupported 3 "conditional type") := by
  have hname (text : String) (start : Nat) (hfree : wordsOfTypes.contains text = false) :
      TypeForm .operand ([] ++ ((⟨.word, text, start⟩ :: ([] ++ [])) ++ Node.tokensOf [])) :=
    .operand nofun (.simple (.name rfl hfree .nil .none)) nofun
  have hunion : TypeForm .whole (_ ++ ⟨.punct, "|", 15⟩ :: _) :=
    .plain (.join (hname "B" 13 (by decide)) (by decide) (.single (hname "C" 17 (by decide))))
  have hwhole (text : String) (start : Nat) (hfree : wordsOfTypes.contains text = false) : TypeForm .whole _ :=
    .plain (.single (hname text start hfree))
  obtain ⟨s, hs, htokens, hbreaks, hsemicolon, hrefused⟩ : ∃ s, Stream.read "x: A extends B | C ? D : E;" = .ok s ∧
      s.tokens.toList.drop 2 = [⟨.word, "A", 3⟩] ++ ⟨.word, "extends", 5⟩ ::
        ([⟨.word, "B", 13⟩, ⟨.punct, "|", 15⟩, ⟨.word, "C", 17⟩] ++ ⟨.punct, "?", 19⟩ :: ([⟨.word, "D", 21⟩] ++
          ⟨.punct, ":", 23⟩ :: [⟨.word, "E", 25⟩])) ++ [⟨.punct, ";", 26⟩] ∧
      s.breaks = Array.replicate 12 false ∧ s.is 11 ";" = true ∧
      Subtype.val <$> s.typeEnd 12 2 = .error (s.unsupported 3 "conditional type") :=
    ⟨_, by cbv, by cbv, by cbv, by cbv, by cbv⟩
  have hat : s.Holds 2 _ := ⟨_, htokens.symm⟩
  have hline : ∀ i < 11, 2 < i → s.breakBefore i = false := fun i _ _ => by simp [breakBefore, hbreaks, Array.getD]
  have hend : s.TypeEndsAt 12 11 := fun _ => by simp [isAny, hsemicolon]
  have hconditional := typeEnd_conditional hs (hname "A" 3 (by decide)) (by decide) hunion (by decide)
    (hwhole "D" 21 (by decide)) (by decide) (hwhole "E" 25 (by decide)) rfl hat (by decide) hline hend
  have hnone : ¬ TypeForm .operand _ := fun hoperand => by
    rw [hconditional.1 hoperand] at hrefused
    cases hrefused
  exact ⟨s, _, _, _, _, _, _, _, hs, hname "A" 3 (by decide), by decide, hunion, by decide, hwhole "D" 21 (by decide),
    by decide, hwhole "E" 25 (by decide), hat, hline, hend, hnone, hrefused⟩

end Stream
end CustomElement.Script
