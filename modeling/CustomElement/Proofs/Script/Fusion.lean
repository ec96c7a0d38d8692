import CustomElement.Proofs.Script.Decisions
import CustomElement.Proofs.Script.Printing

/-!
# When erasure fuses tokens

Where nothing has to be put in, erasing types takes out whole tokens. `seamless` looks at every token that is left, in
front of the text that now follows it: if it finds nothing, the result is read as the tokens that are left, and
otherwise it is not (`stripTypes_reads_back_iff`).
-/

namespace CustomElement.Script

open List Text

section Apart

variable {offset : Nat} {cs : List Char} {before behind : List Token} {t u : Token}

lemma TilesFrom.apart (h : TilesFrom offset (before ++ t :: behind) cs) (hu : u ∈ before ++ t :: behind) :
    u = t ∨ u.stop ≤ t.start ∨ t.stop ≤ u.start := by
  rcases mem_append.1 hu with hu | hu
  · rw [h.start_eq]
    exact .inr (.inl (h.stop_le u hu))
  · obtain ⟨r, -, hr⟩ := h.of_append
    rcases mem_cons.1 hu with rfl | hu
    · exact .inl rfl
    · obtain ⟨-, -, r, -, hr⟩ := hr
      exact .inr (.inr (hr.le_start u hu))

end Apart

namespace Stream

variable {source : String} {s : Stream} {tokens : List Token}

section

variable (h : Stream.read source = .ok s)

include h

lemma IsEdge.exists_mem (ht : tokenize source = .ok tokens) {n : Nat}
    (hn : s.IsEdge n) : ∃ t ∈ tokens, t.isTrivia = false ∧ (n = t.start ∨ n = t.stop) := by
  obtain ⟨tokens', -, ht', -, -, hc, -⟩ := exists_of_read h
  obtain rfl := ok.inj (ht.symm.trans ht')
  obtain ⟨i, hl, hi⟩ := hn
  have hm := Array.mem_of_getElem? (getElem?_tokens hl)
  rw [hc, mem_toArray, mem_filter] at hm
  exact ⟨s.tok i, hm.1, by simpa using hm.2, hi⟩

lemma IsEdge.isBoundary {n : Nat} (hn : s.IsEdge n) : IsBoundary s.source.toList n := by
  obtain ⟨i, hi, rfl | rfl⟩ := hn
  · exact boundary_start h hi
  · exact boundary_stop h hi

lemma IsCut.fits {e : Edit} (he : s.IsCut e) : e.Fits source.toList := by
  obtain ⟨-, -, -, -, rfl, -⟩ := exists_of_read h
  exact ⟨he.start.isBoundary h, he.stop.isBoundary h⟩

lemma IsEdge.apart_of_mem (ht : tokenize source = .ok tokens) {n : Nat}
    (hn : s.IsEdge n) {t : Token} (hm : t ∈ tokens) : n ≤ t.start ∨ t.stop ≤ n := by
  have hti := tokensFrom_tiles (mapError_eq_ok.1 ht)
  obtain ⟨u, hu, -, he⟩ := hn.exists_mem h ht
  have hlu := start_lt_stop (hti.text_ne_empty u hu)
  have hlt := start_lt_stop (hti.text_ne_empty t hm)
  obtain ⟨before, behind, rfl⟩ := append_of_mem hm
  rcases hti.apart hu with rfl | ha
  · omega
  · omega

lemma IsCut.covers {before behind : List Token} {t u : Token}
    (hto : tokenize source = .ok (before ++ t :: u :: behind)) (ht : t.isTrivia) (hu : u.isTrivia)
    {e : Edit} (he : s.IsCut e) (hcv : e.covers u) : e.covers t := by
  have hti := tokensFrom_tiles (mapError_eq_ok.1 hto)
  have hti' : TilesFrom 0 ((before ++ [t]) ++ u :: behind) source.toList := by simpa using hti
  have hl : ∀ v ∈ before ++ t :: u :: behind, v.start < v.stop := fun v hv =>
    start_lt_stop (hti.text_ne_empty v hv)
  have hn : t.stop = u.start := by
    rw [hti'.start_eq, Token.stop, hti.start_eq]
    simp
  have hs := hl u (by simp)
  simp only [Edit.covers, and_eq_true, decide_eq_true_eq] at hcv ⊢
  refine ⟨?_, by omega⟩
  obtain ⟨c, hc, hco, hed⟩ := he.start.exists_mem h hto
  have hct : c ≠ t := by
    rintro rfl
    rw [ht] at hco
    cases hco
  have hcu : c ≠ u := by
    rintro rfl
    rw [hu] at hco
    cases hco
  have ha := (hti.apart hc).resolve_left hct
  have ha' := (hti'.apart (by simpa using hc)).resolve_left hcu
  have hse := hl c hc
  omega

end

end Stream

def Form.fits (fresh slash : Bool) (f : Form) (rest : List Char) : Bool :=
  match f.text with
  | [] => false
  | c :: cs => (f.kind == .template || openingKind fresh slash c (cs ++ rest).head? == f.kind) && f.endsBefore fresh rest

/-- Every token that carries code fits where it stands. -/
def seamless (fresh slash : Bool) : List Form → Bool
  | [] => true
  | f :: fs => (f.isTrivia || f.fits fresh slash (fs.flatMap Form.text)) && seamless false (f.slashNext slash) fs

variable {fresh slash : Bool}

lemma Lexes.elsewhere_iff {fresh₀ slash₀ : Bool} {cs r₀ r : List Char} {f : Form} (h : Lexes fresh₀ slash₀ cs f r₀) :
    Lexes fresh slash (f.text ++ r) f r ↔ f.fits fresh slash r := by
  obtain ⟨kind, x⟩ := f
  obtain ⟨c, a, rfl⟩ := exists_cons_of_ne_nil h.text_ne_nil
  simp only [Form.fits, and_eq_true, or_eq_true, beq_iff_eq]
  constructor
  · intro hl
    refine ⟨or_iff_not_imp_left.2 fun hk => ?_, hl.endsBefore⟩
    obtain ⟨c', a', heq, ho, -⟩ := hl.exists_body hk
    obtain ⟨rfl, rfl⟩ := cons.inj heq
    exact ho
  · rintro ⟨ho, he⟩
    by_cases hk : kind = .template
    · have he₀ : Form.endsBefore fresh₀ ⟨kind, c :: a⟩ r := by simp [Form.endsBefore, hk]
      have hl := h.before he₀
      obtain rfl : c = '`' := by
        obtain ⟨a', ha', -⟩ := h.getLast?_template hk
        exact (cons.inj ha').1
      exact (lexes_template hl).2 fresh slash
    · obtain ⟨c', a', heq, ho₀, hb⟩ := h.exists_body hk
      obtain ⟨rfl, rfl⟩ := cons.inj heq
      have hc : c ≠ '`' := by
        rintro rfl
        exact hk (lexes_template (h.append_eq ▸ h)).1
      exact (lexes_plain_iff hc).2 ⟨ho.resolve_left hk, bodyOf_local hb he⟩

lemma readsAs_code_iff {fresh₀ slash₀ : Bool} {cs rest₀ rest : List Char} {f : Form} {es : List Form}
    (h : Lexes fresh₀ slash₀ cs f rest₀) (hf : f.isTrivia = false) : ReadsAs fresh slash (f.text ++ rest) (f :: es) ↔
      f.fits fresh slash rest ∧ ReadsAs false (f.slashNext slash) rest es := by
  have hbl : f.kind ≠ .blank := by
    intro hk
    simp [Form.isTrivia, hk] at hf
  rw [← h.elsewhere_iff]
  constructor
  · rintro ⟨fs, hfs, hes⟩
    -- The text does not begin with a blank, so it is the first token that is read as `f`.
    obtain ⟨c, a, ha, hc⟩ := h.exists_cons hbl
    generalize ht : f.text ++ rest = x at hfs
    cases hfs with
    | nil => cases hes
    | @cons _ _ _ rest' f' fs' fst more =>
      have hfi : f'.kind ≠ .blank := by
        intro hk
        obtain ⟨d, b, hb⟩ := exists_cons_of_ne_nil fst.text_ne_nil
        have heq := fst.append_eq.trans ht.symm
        rw [ha, hb] at heq
        obtain ⟨rfl, -⟩ := cons.inj heq
        rw [(fst.blank hk).1 d (by simp [hb])] at hc
        cases hc
      rw [essences_cons hfi] at hes
      obtain ⟨he, rfl⟩ := cons.inj hes
      have hco : f'.isTrivia = false := by rw [← f'.isTrivia_essence, he, hf]
      obtain rfl : f' = f := by rw [← Form.essence_of_code hco, he]
      obtain rfl : rest' = rest := append_cancel_left (fst.append_eq.trans ht.symm)
      exact ⟨fst, fs', more, rfl⟩
  · rintro ⟨hl, hm⟩
    exact (readsAs_iff_of_lexes hl hbl).2 ⟨es, by rw [Form.essence_of_code hf], hm⟩

/-- **Tokens side by side** are read as themselves, but for blanks, exactly if they are seamless and their line comments
end with their lines. -/
lemma readsAs_iff_seamless {fs : List Form} (hle : ∀ f ∈ fs, ∃ fresh slash cs r, Lexes fresh slash cs f r)
    (hc : ∀ before f behind, fs = before ++ f :: behind → f.kind = .lineComment →
      LineCommentMark (fresh && before.isEmpty) f.text ∧ f.text.all (fun c => !isLineEnd c) ∧
        (behind.flatMap Form.text).head?.all isLineEnd) :
    ReadsAs fresh slash (fs.flatMap Form.text) (essences fs) ↔ seamless fresh slash fs := by
  induction fs generalizing fresh slash with
  | nil => exact iff_of_true (readsAs_nil_iff.2 rfl) rfl
  | cons f fs ih =>
    obtain ⟨⟨fresh₀, slash₀, cs, r, hf⟩, hfs⟩ := forall_mem_cons.1 hle
    have hm : ReadsAs false (f.slashNext slash) (fs.flatMap Form.text) (essences fs) ↔
        seamless false (f.slashNext slash) fs := by
      refine ih hfs fun before g behind heq hk => ?_
      have := hc (f :: before) g behind (by rw [heq]; rfl) hk
      simpa using this
    rw [flatMap_cons, seamless, and_eq_true, or_eq_true]
    by_cases hb : f.kind = .blank
    · have ht : f.isTrivia := by simp [Form.isTrivia, hb]
      have hn : f.slashNext slash = slash := by rw [slashNext, if_pos ht]
      rw [hn] at hm ⊢
      rw [essences_cons_blank hb, readsAs_gap_append hf.text_ne_nil (hf.blank hb).1, hm, ht]
      simp
    · rw [essences_cons hb]
      by_cases ht : f.isTrivia
      · have hr : Lexes fresh slash (f.text ++ fs.flatMap Form.text) f (fs.flatMap Form.text) := by
          obtain ⟨kind, x⟩ := f
          by_cases hl : kind = .lineComment
          · subst hl
            obtain ⟨hma, ha, he⟩ := hc [] _ fs rfl rfl
            exact lexes_lineComment (by simpa using hma) ha he
          · obtain rfl : kind = .blockComment := by simpa [Form.isTrivia, hl, hb] using ht
            obtain ⟨body, rfl, hcl⟩ := hf.blockComment rfl
            exact lexes_blockComment fresh slash hcl _
        rw [readsAs_iff_of_lexes hr hb, ht]
        simp [hm]
      · have hco := of_not_eq_true ht
        rw [Form.essence_of_code hco, readsAs_code_iff hf hco, hm, hco]
        simp

lemma exists_of_keptTokens_eq {es : List Edit} {tokens before behind : List Token} {t : Token}
    (h : keptTokens es tokens = before ++ t :: behind) : ∃ before' behind', tokens = before' ++ t :: behind' ∧
      keptTokens es before' = before ∧ (∀ e ∈ es, e.covers t = false) ∧ keptTokens es behind' = behind := by
  obtain ⟨before', r, rfl, hb, hr⟩ := filter_eq_append_iff.1 h
  obtain ⟨skipped, behind', rfl, hs, ht, hbe⟩ := filter_eq_cons_iff.1 hr
  refine ⟨before' ++ skipped, behind', by simp, ?_, by simpa using ht, hbe⟩
  have hn : keptTokens es skipped = [] := filter_eq_nil_iff.2 hs
  rw [keptTokens_append, hn, append_nil]
  exact hb

lemma lineComment_of_kept {source : String} {s : Stream} {tokens : List Token} {es : List Edit}
    (h : Stream.read source = .ok s) (hto : tokenize source = .ok tokens) (hcu : s.AllCut es)
    {before behind : List Token} {t : Token} (hk : keptTokens es tokens = before ++ t :: behind)
    (ht : t.kind = .lineComment) :
    LineCommentMark before.isEmpty t.form.text ∧ t.form.text.all (fun c => !isLineEnd c) ∧
      (charsOf behind).head?.all isLineEnd := by
  obtain ⟨before', behind', rfl, rfl, hco, rfl⟩ := exists_of_keptTokens_eq hk
  have hr := tokenize_eq_ok_iff.1 ⟨_, hto, rfl⟩
  rw [map_append, map_cons] at hr
  obtain ⟨r, hf, hmo⟩ := hr.split.2.uncons
  obtain ⟨hm, hal, hen⟩ := hf.lineComment ht
  refine ⟨?_, hal, ?_⟩
  · rcases hm with hm | ⟨hfr, hm⟩
    · exact .inl hm
    · refine .inr ⟨?_, hm⟩
      obtain rfl : before' = [] := by simpa using hfr
      rfl
  · cases behind' with
    | nil => rfl
    | cons u behind' =>
      obtain ⟨r', hn, -⟩ := hmo.uncons
      obtain ⟨c, a, ha⟩ := exists_cons_of_ne_nil hn.text_ne_nil
      have hl : isLineEnd c := by
        rw [← hn.append_eq, ha] at hen
        simpa using hen
      have hbl : u.kind = .blank := by
        by_contra hne
        obtain ⟨d, b, hb, hin⟩ := hn.exists_cons hne
        obtain ⟨rfl, -⟩ := cons.inj (ha.symm.trans hb)
        rw [isGap_of_isLineEnd hl] at hin
        cases hin
      have hle : ∀ e ∈ es, e.covers u = false := by
        intro e he
        by_contra hu
        have hc := (hcu e he).covers h hto (by simp [Token.isTrivia, ht]) (by simp [Token.isTrivia, hbl])
          (of_not_eq_false hu)
        rw [hco e he] at hc
        cases hc
      have hk' : keptTokens es (u :: behind') = u :: keptTokens es behind' := filter_cons_of_pos (by simpa using hle)
      have hte : u.text.toList = c :: a := ha
      rw [hk', charsOf_cons, hte]
      simpa using hl

namespace Stream

/-- The script has no enumeration, no parameter property and no expression in a template literal. -/
def onlyRemoves (s : Stream) : Bool :=
  (List.range s.size).all fun j =>
    !(s.is j "enum" && s.isWord (j + 1)) &&
      !(s.is j "constructor" && s.is (j + 1) "(" && !(s.propertyNamesFrom (s.close s.size (j + 1)) (j + 2) true).isEmpty) &&
      !((s.tok j).kind == .template && hasInterpolation (s.tok j).text.toList)

variable {source : String} {s : Stream} {erase : String → Except Fault String}

lemma close_cases (h : Stream.read source = .ok s) (hi j : Nat) : s.close hi j = s.close s.size j ∨ s.close hi j = j := by
  obtain ⟨tokens, partners, -, hpa, -, hc, hs⟩ := exists_of_read h
  unfold close
  cases hp : s.partners.getD j none with
  | none => exact .inr rfl
  | some p =>
    have hg : partners[j]? = some (some p) := by
      rw [hs, Array.getD_eq_getD_getElem?, getElem?_toArray] at hp
      cases hpj : partners[j]? with
      | none => simp [hpj] at hp
      | some o => simpa [hpj] using hp
    obtain ⟨u, hu, -⟩ := (mated_of_matchBrackets hpa hg).isBracket
    have hl : p < s.size := by
      rw [size, hc]
      exact (List.getElem?_eq_some_iff.1 hu).1
    simp only
    split
    · rename_i hle
      rw [if_pos ⟨hle.1, hl.le⟩]
      exact .inl rfl
    · exact .inr rfl

lemma Called.isCut (h : Stream.read source = .ok s) (ho : s.onlyRemoves) {e : Edit}
    (he : s.Called erase e) : s.IsCut e := by
  have hn : ∀ j < s.size, _ := fun j hj => all_eq_true.1 ho j (mem_range.2 hj)
  simp only [and_eq_true, not_eq_true', Bool.and_eq_false_iff, Bool.not_eq_false'] at hn
  cases he with
  | cut hcu => exact hcu
  | enumeration hen =>
    obtain ⟨k, -, -, hk, hna, -⟩ := hen.keyword
    have hj := hn k (lt_size_of_is hk (by decide))
    simp [hk, hna] at hj
  | @property hi j _ hk hl _ hm =>
    have hj := (hn j (lt_size_of_is hk (by decide))).1.2
    have hem : s.propertyNamesFrom (s.close hi (j + 1)) (j + 2) true = [] := by
      rcases close_cases h hi (j + 1) with hc | hc
      · rw [hc]
        simpa [hk, hl] using hj
      · rw [hc, propertyNamesFrom, if_neg (by omega)]
    simp [parameterProperties, hem] at hm
  | @substitution j ht hin es hed _ hm =>
    have hj := (hn j (lt_size_of_kind (by rw [ht]; decide))).2
    simp [ht, hin] at hj

end Stream

lemma applyEdits_of_onlyRemoves {source : String} {s : Stream} {tokens : List Token} {edits : List Edit}
    (hs : Stream.read source = .ok s) (ho : s.onlyRemoves) (ht : tokenize source = .ok tokens)
    (hed : typeEdits source = .ok edits) :
    s.AllCut edits ∧ (applyEdits source edits).toList = charsOf (keptTokens edits tokens) := by
  have hc : s.AllCut edits := by
    obtain ⟨s', hs', hsc⟩ := typeEdits_eq_ok_iff.1 hed
    obtain rfl := ok.inj (hs.symm.trans hs')
    exact fun e he => ((Stream.placed_start hs).called hsc e he).isCut hs ho
  refine ⟨hc, applyEdits_cuts ht (fun e he => (hc e he).text) (fun e he => (hc e he).fits hs) fun t hm e he => ?_⟩
  have hst := (hc e he).start.apart_of_mem hs ht hm
  have hso := (hc e he).stop.apart_of_mem hs ht hm
  simp only [Edit.covers, and_eq_true, decide_eq_true_eq]
  omega

/-- **When the result of erasure is read as what is left.** Where nothing is put in, the result consists of the tokens
that lie in no range. It is read as these tokens, but for blanks, exactly if they are seamless; and then its code is
theirs. -/
theorem stripTypes_reads_back_iff {grammar : Grammar} {source out : String} {s : Stream}
    (h : stripTypes grammar source = .ok out) (hs : Stream.read source = .ok s) (honly : s.onlyRemoves = true) :
    ∃ tokens edits, tokenize source = .ok tokens ∧ typeEdits source = .ok edits ∧
      out.toList = charsOf (keptTokens edits tokens) ∧
      ((∃ printed, tokenize out = .ok printed ∧
          essences (printed.map Token.form) = essences ((keptTokens edits tokens).map Token.form)) ↔
        seamless true true ((keptTokens edits tokens).map Token.form) = true) ∧
      (seamless true true ((keptTokens edits tokens).map Token.form) = true →
        ∃ printed, tokenize out = .ok printed ∧ codeForms printed = codeForms (keptTokens edits tokens)) := by
  obtain ⟨-, ⟨edits, hedits, rfl⟩, -⟩ := stripTypes_eq_ok_iff.1 h
  obtain ⟨tokens, -, htokens, -⟩ := Stream.exists_of_read hs
  obtain ⟨hcuts, hout⟩ := applyEdits_of_onlyRemoves hs honly htokens hedits
  generalize applyEdits source edits = out at hout ⊢
  have hreads := tokenize_eq_ok_iff.1 ⟨tokens, htokens, rfl⟩
  have hiff : ReadsAs true true out.toList (essences ((keptTokens edits tokens).map Token.form)) ↔
      seamless true true ((keptTokens edits tokens).map Token.form) = true := by
    rw [hout, ← flatMap_form]
    refine readsAs_iff_seamless (fun f hf => ?_) fun before f behind heq hkind => ?_
    · obtain ⟨t, ht, rfl⟩ := List.mem_map.1 hf
      exact hreads.exists_lexes (List.mem_map_of_mem (List.mem_filter.1 ht).1)
    · obtain ⟨before, rest, hkept, rfl, hrest⟩ := List.map_eq_append_iff.1 heq
      obtain ⟨t, behind, rfl, rfl, rfl⟩ := List.map_eq_cons_iff.1 hrest
      rw [flatMap_form, Bool.true_and, List.isEmpty_map]
      exact lineComment_of_kept hs htokens hcuts hkept hkind
  have hread : ReadsAs true true out.toList (essences ((keptTokens edits tokens).map Token.form)) ↔
      ∃ printed, tokenize out = .ok printed ∧
        essences (printed.map Token.form) = essences ((keptTokens edits tokens).map Token.form) := by
    constructor
    · rintro ⟨fs, hfs, hes⟩
      obtain ⟨printed, hprinted, rfl⟩ := tokenize_eq_ok_iff.2 hfs
      exact ⟨printed, hprinted, hes⟩
    · rintro ⟨printed, hprinted, hes⟩
      exact ⟨_, tokenize_eq_ok_iff.1 ⟨printed, hprinted, rfl⟩, hes⟩
  refine ⟨tokens, edits, htokens, hedits, hout, hread.symm.trans hiff, fun hseamless => ?_⟩
  obtain ⟨printed, hprinted, hes⟩ := hread.1 (hiff.2 hseamless)
  exact ⟨printed, hprinted, by rw [codeForms_eq, hes, ← codeForms_eq]⟩

theorem stripTypes_reads_back_iff_return : ∃ s tokens edits,
    stripTypes ⟨fun _ => true, fun _ => true⟩ "function f(x) \x7b return<any>x \x7d" =
        .ok "function f(x) \x7b returnx \x7d" ∧
      Stream.read "function f(x) \x7b return<any>x \x7d" = .ok s ∧ s.onlyRemoves = true ∧
      tokenize "function f(x) \x7b return<any>x \x7d" = .ok tokens ∧
      typeEdits "function f(x) \x7b return<any>x \x7d" = .ok edits ∧
      ¬ ∃ printed, tokenize "function f(x) \x7b returnx \x7d" = .ok printed ∧
        essences (printed.map Token.form) = essences ((keptTokens edits tokens).map Token.form) := by
  have heval : ∃ s tokens edits, Stream.read "function f(x) \x7b return<any>x \x7d" = .ok s ∧ s.onlyRemoves = true ∧
        tokenize "function f(x) \x7b return<any>x \x7d" = .ok tokens ∧
        typeEdits "function f(x) \x7b return<any>x \x7d" = .ok edits ∧
        applyEdits "function f(x) \x7b return<any>x \x7d" edits = "function f(x) \x7b returnx \x7d" ∧
        seamless true true ((keptTokens edits tokens).map Token.form) = false :=
    ⟨_, _, _, by cbv, by cbv, by cbv, by cbv, by cbv, by cbv⟩
  obtain ⟨s, tokens, edits, hs, honly, htokens, hedits, hout, hseam⟩ := heval
  have hstrip : stripTypes ⟨fun _ => true, fun _ => true⟩ "function f(x) \x7b return<any>x \x7d" =
      .ok "function f(x) \x7b returnx \x7d" :=
    stripTypes_eq_ok_iff.2 ⟨rfl, ⟨edits, hedits, hout⟩, rfl⟩
  obtain ⟨tokens', edits', htokens', hedits', -, hiff, -⟩ := stripTypes_reads_back_iff hstrip hs honly
  obtain rfl := ok.inj (htokens.symm.trans htokens')
  obtain rfl := ok.inj (hedits.symm.trans hedits')
  refine ⟨s, tokens, edits, hstrip, hs, honly, htokens, hedits, fun hread => ?_⟩
  rw [hiff.1 hread] at hseam
  cases hseam

end CustomElement.Script
