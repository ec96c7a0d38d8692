import CustomElement.Proofs.Script.Stretches

/-!
# Printing keeps the code of a script

A script is printed stretch by stretch, and every stretch is read apart from the others (`readsAs_stretches_iff`). So
the printed script is read as the script was exactly if every stretch is (`PrintsSafely`). It is not if a bracket comes
to stand behind a line comment, if a regular expression was one only because of a semicolon that is dropped, or if the
layout of a statement is derived from another reading of it (`print_reads_back_iff`).
-/

namespace CustomElement.Script

open List Text

variable {fresh slash : Bool} {g g' x : List Char} {A B es : List Form} {us : List Stretch} {c : MethodCut}
  {level : Nat} {u : Stretch} {gap tx : String} {ns : List Node} {ts : List Token} {brace : Token} {nodes : List Node} {seams : List (List Token)}

def Stretch.reading (u : Stretch) : List Form := essences (u.tokens.map form)

/-- What is read in a text on its own may not be what is read in its place. -/
def misread (es : List Form) : Bool :=
  es.head?.any Form.isNumberSign ||
    (es.find? fun e => !e.isTrivia).any fun e => e.kind != .regex && e.text.head? == some '/'

def opensWithRegex (es : List Form) : Bool :=
  (es.find? fun e => !e.isTrivia).any fun e => e.kind == .regex

/-- Printed where a regular expression is read if `slash` holds, the stretch is read as it should be: no line comment
stands before a bracket, and a regular expression stands where one is read. -/
def Stretch.Safe (fresh slash : Bool) (u : Stretch) : Prop :=
  if misread u.reading then ReadsAs fresh slash u.text.toList u.reading
  else (opensWithRegex u.reading = true → slash = true) ∧ ∀ seam ∈ u.seams, endsWithLineComment seam = false

/-- Every stretch of the printed script is safe where it stands. -/
def PrintsSafely (nodes : List Node) : Prop :=
  ∀ before u after, stretches nodes = before ++ u :: after →
    u.Safe before.isEmpty (slashThrough true (before.flatMap Stretch.reading))

lemma essences_tokens (us : List Stretch) :
    essences ((us.flatMap Stretch.tokens).map form) = us.flatMap Stretch.reading := by
  induction us with
  | nil => rfl
  | cons u us ih => rw [flatMap_cons, map_append, essences_append, ih]; rfl

def Stretch.Joins (u v : Stretch) : Prop :=
  v.chars.head?.any isLineEnd = true ∨
    (v.chars.head?.any (fun c => isNeutral c && !isGap c) = true ∧ ¬ EndsInComment u.reading)

/-- A stretch is read as it should be where it is safe. -/
structure Stretch.Sound (u : Stretch) : Prop where
  gap : IsGap u.gap.toList
  inked : u.text.toList ≠ []
  ink : ink u.text.toList = u.reading.flatMap fun e => ink e.text
  reads : ∀ fresh slash, ReadsAs fresh slash u.text.toList u.reading ↔ u.Safe fresh slash

lemma Stretch.Sound.readsAs_iff (h : u.Sound) (hf : fresh = false ∨ u.gap.toList = []) :
    ReadsAs fresh slash u.chars u.reading ↔ u.Safe fresh slash := by
  rw [← h.reads]
  rcases hf with rfl | hn
  · exact readsAs_gap_append_iff h.gap
  · rw [Stretch.chars, hn, nil_append]

lemma Stretch.Sound.ink_chars (h : u.Sound) : Script.ink u.chars = u.reading.flatMap fun e => Script.ink e.text := by
  rw [Stretch.chars, ink_append, h.gap.ink, nil_append, h.ink]

lemma readsAs_cons_iff (hu : u.Sound) (hn : ∀ v ∈ us.head?, u.Joins v) (hne : ∀ v ∈ us, v.chars ≠ []) :
    ReadsAs fresh slash (u.chars ++ us.flatMap Stretch.chars) (u.reading ++ us.flatMap Stretch.reading) ↔
      ReadsAs fresh slash u.chars u.reading ∧ ReadsAs false (slashThrough slash u.reading) (us.flatMap Stretch.chars)
          (us.flatMap Stretch.reading) := by
  have hf : (fresh && u.chars.isEmpty) = false := by
    rw [Stretch.chars, isEmpty_append_of_ne_nil _ hu.inked, Bool.and_false]
  cases us with
  | nil =>
    have hbr : ReadsAs fresh slash (u.chars ++ []) (u.reading ++ []) ↔ _ := readsAs_append_break_iff hu.ink_chars rfl
    rwa [hf] at hbr
  | cons v us =>
    obtain ⟨c, cs, hv⟩ := exists_cons_of_ne_nil (hne v (by simp))
    rw [flatMap_cons, hv, cons_append]
    rcases hn v (by simp) with hl | ⟨hb, hc⟩
    · rw [hv] at hl
      rw [readsAs_append_break_iff hu.ink_chars (by simpa using hl), hf]
    · rw [hv] at hb
      simp only [head?_cons, any_some, and_eq_true, not_eq_true'] at hb
      rw [readsAs_append_neutral_iff hu.ink_chars hb.1 hb.2, hf]
      exact ⟨fun h => ⟨h.1, h.2.1⟩, fun h => ⟨h.1, h.2, fun hs => hc hs.1⟩⟩

/-- **Stretches are read one by one**: a run of them is read as it should be if every one is safe where it stands. -/
lemma readsAs_stretches_iff (hs : ∀ u ∈ us, u.Sound) (hj : us.IsChain Stretch.Joins)
    (hf : fresh = false ∨ us.head?.all (·.gap.isEmpty)) :
    ReadsAs fresh slash (us.flatMap Stretch.chars) (us.flatMap Stretch.reading) ↔ ∀ pre u aft, us = pre ++ u :: aft →
        u.Safe (fresh && pre.isEmpty) (slashThrough slash (pre.flatMap Stretch.reading)) := by
  induction us generalizing fresh slash with
  | nil =>
    refine ⟨fun _ pre u aft h => ?_, fun _ => readsAs_nil_iff.2 rfl⟩
    simp at h
  | cons u us ih =>
    obtain ⟨hu, hus⟩ := forall_mem_cons.1 hs
    obtain ⟨hn, hj⟩ := isChain_cons.1 hj
    have hg : fresh = false ∨ u.gap.toList = [] := by
      refine hf.imp_right fun h => ?_
      rw [head?_cons, all_some] at h
      rw [String.isEmpty_iff.1 h]
      rfl
    rw [flatMap_cons, flatMap_cons, readsAs_cons_iff hu hn fun v hv hni => (hus v hv).inked (append_eq_nil_iff.1 hni).2,
      hu.readsAs_iff hg, ih hus hj (.inl rfl)]
    constructor
    · rintro ⟨hfr, hm⟩ pre v aft heq
      cases pre with
      | nil =>
        obtain ⟨rfl, rfl⟩ := cons.inj heq
        simpa using hfr
      | cons w pre =>
        obtain ⟨rfl, hr⟩ := cons.inj heq
        simpa using hm pre v aft hr
    · intro ha
      refine ⟨by simpa using ha [] u us rfl, fun pre v aft heq => ?_⟩
      simpa using ha (u :: pre) v aft (by rw [heq]; rfl)

lemma form_of_isPunct {t : Token} (h : t.isPunct tx) : t.form = ⟨.punct, tx.toList⟩ := by
  rw [isPunct_iff] at h
  rw [form, h.1, h.2]

lemma openingKind_regex {c : Char} {next : Option Char} (h : openingKind fresh slash c next = .regex) : slash := by
  unfold openingKind at h
  split at h
  · cases h
  · split at h
    · cases h
    · split at h
      · cases h
      · split at h
        · cases h
        · split at h
          · cases h
          · split at h
            · cases h
            · split at h
              · rename_i hs
                exact (and_eq_true _ _ ▸ hs).2
              · cases h

lemma ReadsAs.slash_of_regex (h : ReadsAs fresh slash x es) (he : opensWithRegex es) : slash := by
  obtain ⟨fs, hfs, rfl⟩ := h
  rw [opensWithRegex, find?_essences] at he
  obtain ⟨f, hf, hk⟩ := (Option.any_eq_true _ _).1 he
  rw [find?_eq_some_iff_append] at hf
  obtain ⟨-, as, bs, rfl, has⟩ := hf
  have ht : slashThrough slash as = slash := slashThrough_of_trivia slash fun a ha => by simpa using has a ha
  obtain ⟨r, fst, -⟩ := hfs.split.2.uncons
  have hr : f.kind = .regex := by simpa using hk
  obtain ⟨c, a, ha, ho, -⟩ := fst.exists_body (by rw [hr]; decide)
  rw [hr, ht] at ho
  exact openingKind_regex ho

lemma misread_eq_false : misread es = false ↔ es.head?.any Form.isNumberSign = false ∧ (opensWithRegex es ∨
        (es.find? fun e => !e.isTrivia).all (fun e => e.text.head? != some '/')) := by
  rw [misread, or_eq_false_iff, opensWithRegex]
  cases es.find? fun e => !e.isTrivia with
  | none => simp
  | some e => by_cases hk : e.kind = .regex <;> simp [hk]

lemma misread_of_append {es' : List Form} (h : misread (es ++ es') = false) : misread es = false := by
  rw [misread, or_eq_false_iff] at h ⊢
  constructor
  · cases es with
    | nil => rfl
    | cons e es => simpa using h.1
  · have hc := h.2
    rw [find?_append] at hc
    cases hf : es.find? fun e => !e.isTrivia with
    | none => rfl
    | some e => simpa [hf] using hc

lemma ReadsAs.alone (h : ReadsAs fresh slash x es) (he : misread es = false) : ReadsAs true true x es := by
  obtain ⟨hsi, hs⟩ := misread_eq_false.1 he
  exact h.elsewhere hsi (hs.imp_left fun hr => (h.slash_of_regex hr).symm)

/-- The layout of a text is read as the text on its own, where a regular expression at its beginning is read as one. -/
lemma readsAs_layout_iff (he : misread es = false) : ReadsAs fresh slash (reindent tx level).toList es ↔
      (opensWithRegex es → slash) ∧ ReadsAs true true tx.toList es := by
  obtain ⟨hsi, hs⟩ := misread_eq_false.1 he
  constructor
  · intro h
    refine ⟨h.slash_of_regex, (readsAs_reindent_iff hsi ?_).1 h⟩
    exact hs.imp_left h.slash_of_regex
  · rintro ⟨hr, h⟩
    exact (readsAs_reindent_iff hsi (hs.imp_left hr)).2 h

lemma ReadsAs.of_trimmed (h : ReadsAs fresh slash (g ++ x ++ g') es) (hg : IsGap g) (hg' : IsGap g') :
    ∃ fresh', ReadsAs fresh' slash x es := by
  have hf := h.of_append_gap hg'
  by_cases hn : g = []
  · rw [hn, nil_append] at hf
    exact ⟨_, hf⟩
  · exact ⟨false, (readsAs_gap_append hn hg).1 hf⟩

lemma InPlace.readsAs (h : InPlace ns) (ht : (textOf ns).toList = g ++ x ++ g') (hg : IsGap g) (hg' : IsGap g') :
    ∃ fresh slash, ReadsAs fresh slash x (essences ((tokensOf ns).map form)) := by
  obtain ⟨-, fresh, slash, hre⟩ := h
  have hr : ReadsAs fresh slash (g ++ x ++ g') _ := ⟨_, ht ▸ hre, rfl⟩
  obtain ⟨fresh', hr⟩ := hr.of_trimmed hg hg'
  exact ⟨fresh', slash, hr⟩

lemma sound_laid (h : InPlace ns) (hh : ns.head?.any (fun n => !n.isBlank))
    (ht : (textOf ns).toList = g ++ tx.toList ++ g') (hg : IsGap g) (hg' : IsGap g') (hga : IsGap gap.toList)
    (level : Nat) : (laid gap tx level ns).Sound := by
  obtain ⟨fresh', slash', hr⟩ := h.readsAs ht hg hg'
  have hin : ink (reindent tx level).toList = ink (textOf ns).toList := by
    rw [ink_reindent, ht, ink_append, ink_append, hg.ink, hg'.ink, nil_append, append_nil]
  refine ⟨hga, ?_, ?_, fun fresh slash => ?_⟩
  · intro hni
    obtain ⟨c, hc, hc'⟩ := h.ink_ne_nil hh
    have hn : ink (textOf ns).toList = [] := by
      rw [← hin]
      exact congrArg ink hni
    rw [ink_eq_nil, all_eq_true] at hn
    rw [hn c hc] at hc'
    cases hc'
  · exact (ink_reindent tx level).trans hr.ink_eq
  · unfold Stretch.Safe
    split
    · rfl
    · rename_i he
      have he : misread (essences ((tokensOf ns).map form)) = false := of_not_eq_true he
      refine (readsAs_layout_iff he).trans ⟨fun hl => ⟨hl.1, ?_⟩, fun hs => ⟨hs.1, hr.alone he⟩⟩
      intro seam hse
      cases hse

lemma essences_snoc_bracket (h : brace.isPunct tx) :
    essences ((ts ++ [brace]).map form) = essences (ts.map form) ++ [⟨.punct, tx.toList⟩] := by
  rw [map_append, essences_append, map_singleton, form_of_isPunct h]
  rfl

lemma readsAs_open_brace_iff (he : misread es = false) (hik : ink tx.toList = es.flatMap fun e => ink e.text) :
    ReadsAs fresh slash (reindent tx level ++ " \x7b").toList (es ++ [⟨.punct, ['\x7b']⟩]) ↔
      ReadsAs fresh slash (reindent tx level).toList es ∧ ¬ EndsInComment es := by
  have hs : IsGap [' '] := by simp [IsGap]; decide
  have hsp : (reindent tx level ++ " \x7b").toList = ((reindent tx level).toList ++ [' ']) ++ ['\x7b'] := by
    rw [toList_append, append_assoc]
    rfl
  have hb : ∀ fresh slash, ReadsAs fresh slash ['\x7b'] [⟨.punct, ['\x7b']⟩] := fun fresh slash =>
    (readsAs_bracket_iff (by simp)).2 (readsAs_nil_iff.2 rfl)
  rw [hsp, readsAs_append_neutral_iff _ (by decide) (by decide)]
  · constructor
    · rintro ⟨hr, -, hse⟩
      have hr := hr.of_append_gap hs
      refine ⟨hr, fun hco => hse ⟨hco, ?_⟩⟩
      -- The layout ends in the line of its last token.
      obtain ⟨fs, hf, -⟩ := ((readsAs_layout_iff he).1 hr).2
      obtain ⟨ts, ht, -⟩ := tokenize_eq_ok_iff.2 hf
      rcases lastLineInked_reindent ht level with hn | ⟨a, z, hl, hin, hli⟩
      · rw [hn]
        decide
      · refine LastLineInked.endsInLine ⟨a, z ++ [' '], by rw [hl, append_assoc], ?_, ?_⟩
        · obtain ⟨c, hc, hg⟩ := hin
          exact ⟨c, mem_append_left _ hc, hg⟩
        · intro c hc
          rcases mem_append.1 hc with hc | hc
          · exact hli c hc
          · rw [mem_singleton.1 hc]
            decide
    · rintro ⟨hr, hco⟩
      exact ⟨hr.append_gap hs, hb _ _, fun hse => hco hse.1⟩
  · rw [ink_append, hs.ink, append_nil, ink_reindent, hik]

lemma opensWithRegex_append_brace (es : List Form) (tx : List Char) :
    opensWithRegex (es ++ [⟨.punct, tx⟩]) = opensWithRegex es := by
  rw [opensWithRegex, opensWithRegex, find?_append]
  cases es.find? fun e => !e.isTrivia with
  | none => simp [Form.isTrivia]
  | some e => rfl

lemma sound_opening (hb : brace.isPunct openBrace)
    (hin : ink tx.toList = (essences (ts.map form)).flatMap fun e => ink e.text)
    (hre : misread (essences (ts.map form)) = false → (ReadsAs true true tx.toList (essences (ts.map form)) ∧
        ¬ EndsInComment (essences (ts.map form)) ↔
          ∀ seam ∈ seams, endsWithLineComment seam = false)) (hg : IsGap gap.toList) (level : Nat) :
    (opening gap tx level ts brace seams).Sound := by
  have hr : (opening gap tx level ts brace seams).reading =
      essences (ts.map form) ++ [⟨.punct, ['\x7b']⟩] := essences_snoc_bracket hb
  refine ⟨hg, ?_, ?_, fun fresh slash => ?_⟩
  · simp [opening]
  · rw [hr, flatMap_append, ← hin, ← ink_reindent tx level, opening, toList_append, ink_append]
    rfl
  · unfold Stretch.Safe
    split
    · rfl
    · rename_i he
      rw [hr] at he ⊢
      have he : misread (essences (ts.map form)) = false := misread_of_append (of_not_eq_true he)
      refine (readsAs_open_brace_iff he hin).trans ?_
      rw [readsAs_layout_iff he, opensWithRegex_append_brace, and_assoc, hre he]
      rfl

lemma sound_header (h : InPlace ns) (hb : brace.isPunct openBrace) (hga : IsGap gap.toList) :
    (opening gap (trimEnd (textOf ns)) 0 (tokensOf ns) brace [dropTrailingBlanks (tokensOf ns)]).Sound := by
  obtain ⟨g, hg, ht⟩ := exists_trimEndList (textOf ns).toList
  have ht : (textOf ns).toList = [] ++ (trimEnd (textOf ns)).toList ++ g := by
    simpa [trimEnd] using ht
  obtain ⟨fresh, slash, hr⟩ := h.readsAs ht (by simp [IsGap]) hg
  refine sound_opening hb hr.ink_eq (fun he => ?_) hga 0
  rw [endsInComment_iff]
  simp [hr.alone he]

lemma ReadsAs.of_trimmed_behind (h : ReadsAs false slash (g ++ x ++ g') es) (hg : IsGap g) (hg' : IsGap g') :
    ReadsAs false slash x es :=
  (readsAs_gap_append_iff hg).1 (h.of_append_gap hg')

/-- What stands in brackets is read as it is behind the opening one, and what follows as behind the closing one. -/
lemma InPlace.readsAs_group {n : Node} {r : List Node} {opener : String} (h : InPlace (n :: r)) (hn : n.isGroup opener) :
    n.first.isPunct opener ∧ n.last.isPunct (closerOf opener) ∧
      ReadsAs false (slashAfter ⟨.punct, opener.toList⟩) (textOf n.inside).toList
        (essences ((tokensOf n.inside).map form)) ∧
      ReadsAs false (slashAfter ⟨.punct, (closerOf opener).toList⟩) (textOf r).toList
        (essences ((tokensOf r).map form)) := by
  cases n with
  | leaf t => cases hn
  | group o ms c =>
    obtain ⟨hb, fresh, slash, hr⟩ := h
    have ho : o.isPunct opener := hn
    have hc : c.isPunct (closerOf opener) := by
      have hg := hb _ mem_cons_self
      cases hg with
      | group _ hcl _ =>
        have ht : o.text = opener := beq_iff_eq.1 (and_eq_true _ _ ▸ ho).2
        rwa [ht] at hcl
    have hf : (tokensOf (Node.group o ms c :: r)).map form = [⟨.punct, opener.toList⟩] ++ ((tokensOf ms).map form ++
          ([⟨.punct, (closerOf opener).toList⟩] ++ (tokensOf r).map form)) := by
      simp [form_of_isPunct ho, form_of_isPunct hc]
    rw [hf] at hr
    have hin := hr.split.2
    have hp : ∀ (tx : List Char) (slash : Bool),
        slashThrough slash [⟨.punct, tx⟩] = slashAfter ⟨.punct, tx⟩ := fun _ _ => rfl
    rw [hp, isEmpty_cons, Bool.and_false] at hin
    have hre := hin.split.2.split.2
    rw [hp, isEmpty_cons, Bool.and_false, ← toList_textOf] at hre
    refine ⟨ho, hc, ⟨_, ?_, rfl⟩, ⟨_, hre, rfl⟩⟩
    rw [toList_textOf]
    exact hin.split.1

lemma closerOf_openBrace : closerOf openBrace = closeBrace := by decide

lemma slashAfter_closeBrace : slashAfter ⟨.punct, closeBrace.toList⟩ = false := by decide

lemma sound_closing {tl : String} (hb : brace.isPunct closeBrace)
    (hta : ReadsAs false false tl.toList (essences (ts.map form))) (hg : IsGap gap.toList) :
    (closing gap tl (brace :: ts)).Sound := by
  have hr : (closing gap tl (brace :: ts)).reading = ⟨.punct, ['\x7d']⟩ :: essences (ts.map form) := by
    rw [Stretch.reading, closing, map_cons, form_of_isPunct hb]
    rfl
  have ht : (closing gap tl (brace :: ts)).text.toList = '\x7d' :: tl.toList := by
    rw [closing, toList_append]
    rfl
  have hre : ∀ fresh slash, ReadsAs fresh slash ('\x7d' :: tl.toList)
      (⟨.punct, ['\x7d']⟩ :: essences (ts.map form)) := fun fresh slash =>
    (readsAs_bracket_iff (by simp)).2 hta
  refine ⟨hg, ?_, ?_, fun fresh slash => ?_⟩
  · rw [ht]
    exact cons_ne_nil _ _
  · rw [ht, hr]
    exact (hre true true).ink_eq
  · rw [ht, hr]
    refine iff_of_true (hre fresh slash) ?_
    unfold Stretch.Safe
    rw [hr, if_neg (by simp [misread, Form.isNumberSign, Form.isTrivia])]
    refine ⟨?_, ?_⟩
    · simp [opensWithRegex, Form.isTrivia]
    · simp [closing]

/-- Parts of a signature are read one by one, unless a line comment ends one in the line of the bracket behind it. -/
lemma readsAs_signature_iff {y z : List Char} {C : List Form} (hx : ReadsAs true true x A)
    (hy : ReadsAs false true y B) (hz : ReadsAs false false z C) :
    ReadsAs true true (x ++ '(' :: (y ++ ')' :: z)) (A ++ ⟨.punct, ['(']⟩ :: (B ++ ⟨.punct, [')']⟩ :: C)) ↔
      ¬ (EndsInComment A ∧ endsInLine x) ∧ ¬ (EndsInComment B ∧ endsInLine y) := by
  have ho : slashAfter ⟨.punct, ['(']⟩ := by decide
  have hc : slashAfter ⟨.punct, [')']⟩ = false := by decide
  rw [readsAs_append_neutral_iff hx.ink_eq (by decide) (by decide), readsAs_bracket_iff (by simp), ho,
    readsAs_append_neutral_iff hy.ink_eq (by decide) (by decide), readsAs_bracket_iff (by simp), hc]
  tauto

lemma ink_signature {fresh slash fresh' slash' fresh'' slash'' : Bool} {y z : List Char} {C : List Form}
    (hx : ReadsAs fresh slash x A) (hy : ReadsAs fresh' slash' y B) (hz : ReadsAs fresh'' slash'' z C) :
    ink (x ++ '(' :: (y ++ ')' :: z)) =
      (A ++ ⟨.punct, ['(']⟩ :: (B ++ ⟨.punct, [')']⟩ :: C)).flatMap fun e => ink e.text := by
  have ho : ink ['('] = ['('] := by decide
  have hc : ink [')'] = [')'] := by decide
  rw [flatMap_append, flatMap_cons, flatMap_append, flatMap_cons, ← hx.ink_eq, ← hy.ink_eq,
    ← hz.ink_eq, ho, hc, ink_append, ink_cons_of_not_gap (by decide), ink_append,
    ink_cons_of_not_gap (by decide)]
  rfl

lemma endsInComment_append_cons {e : Form} (he : e.kind ≠ .lineComment) :
    EndsInComment (A ++ e :: B) ↔ EndsInComment B := by
  unfold EndsInComment
  cases hB : B.getLast? with
  | none => simp [getLast?_eq_none_iff.1 hB, he]
  | some f =>
    obtain ⟨B', rfl⟩ := getLast?_eq_some_iff.1 hB
    rw [← cons_append, ← append_assoc, getLast?_concat]

lemma readsAs_spaced (h : ReadsAs false slash tx.toList es) (close : Bool) :
    ReadsAs false slash (if tx.isEmpty then "" else if close then tx else " " ++ tx).toList es := by
  split
  · rename_i he
    rwa [String.isEmpty_iff.1 he] at h
  · split
    · exact h
    · rw [toList_append]
      exact (readsAs_gap_append_iff (by simp [IsGap]; decide)).2 h

lemma Method.toList_signature (m : Method) : m.signature.toList = m.head.toList ++ '(' :: (m.params.toList ++ ')' ::
      (if m.between.isEmpty then "" else if m.between.toList.head? == some ':' then m.between
        else " " ++ m.between).toList) := by
  simp only [Method.signature, toList_append, append_assoc]
  rfl

lemma MethodCut.essences_signature (hf : c.params.first.isPunct "(")
    (hl : c.params.last.isPunct ")") (hp : c.params.isGroup "(") :
    essences (c.signature.map form) = essences ((tokensOf c.head).map form) ++
      ⟨.punct, ['(']⟩ :: (essences ((tokensOf c.params.inside).map form) ++
        ⟨.punct, [')']⟩ :: essences ((tokensOf c.between).map form)) := by
  have hb : ∀ (tx : List Char) (fs : List Form),
      essences (⟨.punct, tx⟩ :: fs) = ⟨.punct, tx⟩ :: essences fs := fun _ _ => rfl
  rw [MethodCut.signature, tokens_of_isGroup hp]
  simp only [map_append, map_cons, cons_append, append_assoc,
    nil_append, essences_append, form_of_isPunct hf, form_of_isPunct hl, hb]
  rfl

lemma sound_signature (h : InPlace (c.head ++ c.params :: c.between)) (hp : c.params.isGroup "(")
    (hbr : c.body.first.isPunct openBrace) (hg : IsGap gap.toList) :
    (opening gap c.method.signature 1 c.signature c.body.first c.seams).Sound := by
  obtain ⟨hf, hl, hin, hb⟩ := h.of_append_right.readsAs_group hp
  obtain ⟨gh, gh', hgh, hgh', hh⟩ := exists_trim (textOf c.head)
  obtain ⟨gp, gp', hgp, hgp', hpa⟩ := exists_trim (textOf c.params.inside)
  obtain ⟨gb, gb', hgb, hgb', hbe⟩ := exists_trim (textOf c.between)
  have hpl := h.of_append_left
  obtain ⟨fresh, slash, hx⟩ := hpl.readsAs hh hgh hgh'
  rw [hpa] at hin
  rw [hbe] at hb
  have hy : ReadsAs false true (trim (textOf c.params.inside)).toList _ := hin.of_trimmed_behind hgp hgp'
  have hz : ReadsAs false false (if c.method.between.isEmpty then ""
      else if c.method.between.toList.head? == some ':' then c.method.between
        else " " ++ c.method.between).toList _ :=
    readsAs_spaced (hb.of_trimmed_behind hgb hgb') _
  have hs := MethodCut.essences_signature hf hl hp
  have ht : c.method.signature.toList = (trim (textOf c.head)).toList ++
      '(' :: ((trim (textOf c.params.inside)).toList ++ ')' :: _) := c.method.toList_signature
  refine sound_opening hbr ?_ (fun he => ?_) hg 1
  · rw [hs, ht]
    exact ink_signature hx hy hz
  · rw [hs] at he ⊢
    obtain ⟨-, _, _, hr⟩ := hpl
    have hie : InPlace ([c.params] ++ c.between) := h.of_append_right
    obtain ⟨-, _, _, hr'⟩ := hie.of_append_left.inside
    rw [ht, readsAs_signature_iff (hx.alone (misread_of_append he)) hy hz,
      endsInComment_append_cons (by decide), endsInComment_append_cons (by decide),
      endsInComment_trim_iff (toList_textOf c.head) hr,
      endsInComment_trim_iff (toList_textOf c.params.inside) hr', endsInComment_iff]
    simp [MethodCut.seams, and_assoc]

structure Lined (gap : String) (us : List Stretch) : Prop where
  sound : ∀ u ∈ us, u.Sound
  joins : us.IsChain Stretch.Joins
  head : ∀ u ∈ us.head?, u.gap = gap

lemma joins_of_newline {v : Stretch} (h : v.gap.toList.head? = some '\n') (u : Stretch) : u.Joins v := by
  refine .inl ?_
  rw [Stretch.chars, head?_append, h, Option.some_or, any_some]
  decide

lemma Lined.append {gap' : String} {vs : List Stretch} (h : Lined gap us) (hn : us ≠ []) (h' : Lined gap' vs)
    (hg : gap'.toList.head? = some '\n') : Lined gap (us ++ vs) := by
  refine ⟨?_, h.joins.append h'.joins fun u _ v hv => ?_, ?_⟩
  · intro u hu
    rcases mem_append.1 hu with hu | hu
    · exact h.sound u hu
    · exact h'.sound u hu
  · exact joins_of_newline (by rw [h'.head v hv, hg]) u
  · rw [head?_append_of_ne_nil _ hn]
    exact h.head

lemma Lined.single (h : u.Sound) (hg : u.gap = gap) : Lined gap [u] :=
  ⟨by simpa using h, .singleton u, by simpa using hg⟩

lemma Lined.nil (gap : String) : Lined gap [] := ⟨by simp, .nil, by simp⟩

lemma newlines_spec (blank : Bool) : IsGap (if blank then "\n\n" else "\n").toList ∧
    (if blank then "\n\n" else "\n").toList.head? = some '\n' := by
  cases blank <;> (simp [IsGap]; decide)

section Stack

variable {α : Type*} {blank : α → Bool} {entry : String → α → List Stretch} {as : List α}

lemma lined_below (he : ∀ gap, IsGap gap.toList → ∀ a ∈ as, Lined gap (entry gap a))
    (hne : ∀ gap, ∀ a ∈ as, entry gap a ≠ []) {gap : String} {us : List Stretch} (hus : Lined gap us) (hu : us ≠ []) :
    Lined gap (us ++ as.flatMap fun a => entry (if blank a then "\n\n" else "\n") a) := by
  induction as generalizing us with
  | nil => simpa using hus
  | cons a as ih =>
    obtain ⟨hg, hn⟩ := newlines_spec (blank a)
    have hf := hus.append hu (he _ hg a (by simp)) hn
    rw [flatMap_cons, ← append_assoc]
    exact ih (fun gap hg b hb => he gap hg b (mem_cons_of_mem a hb))
      (fun gap b hb => hne gap b (mem_cons_of_mem a hb)) hf (by simp [hu])

lemma lined_stack (he : ∀ gap, IsGap gap.toList → ∀ a ∈ as, Lined gap (entry gap a))
    (hn : ∀ gap, ∀ a ∈ as, entry gap a ≠ []) {fst : String} (hf : IsGap fst.toList) :
    Lined fst (stack fst blank entry as) := by
  cases as with
  | nil => exact Lined.nil fst
  | cons a as =>
    exact lined_below (fun gap hg b hb => he gap hg b (mem_cons_of_mem a hb))
      (fun gap b hb => hn gap b (mem_cons_of_mem a hb)) (he fst hf a (by simp))
      (hn fst a (by simp))

end Stack

lemma lined_block {fr : Stretch} {inner : List Stretch} {level : Nat} {tl : String}
    {ts : List Token} (hf : fr.Sound) (hco : ¬ EndsInComment fr.reading)
    (hin : Lined "\n" inner) (hc : ∀ gap, IsGap gap.toList → (closing gap tl ts).Sound) :
    Lined fr.gap (block fr inner level tl ts) := by
  unfold block
  cases inner with
  | nil =>
    refine ⟨?_, .cons_cons (.inr ⟨?_, hco⟩) (.singleton _), by simp⟩
    · simp [hf, hc "" (by simp [IsGap])]
    · have hch : (closing "" tl ts).chars = '\x7d' :: tl.toList := by
        rw [closing, Stretch.chars, toList_append]
        rfl
      rw [isEmpty_nil, if_pos rfl, hch, head?_cons, any_some]
      decide
  | cons u us =>
    have hg : IsGap ("\n" ++ indentation level).toList := by
      rw [toList_append]
      exact IsGap.append (by simp [IsGap]; decide) (isGap_indentation level)
    have hl := Lined.single (hc _ hg) rfl
    have hli : ("\n" ++ indentation level).toList.head? = some '\n' := by
      rw [toList_append]
      rfl
    rw [isEmpty_cons, if_neg Bool.false_ne_true]
    have hb := (Lined.single hf rfl).append (cons_ne_nil _ _)
      (hin.append (cons_ne_nil _ _) hl hli) rfl
    exact hb

lemma sound_piece {p : Piece} (h : InPlace p.nodes) (hh : p.nodes.head?.any (fun n => !n.isBlank))
    (level : Nat) (hg : IsGap gap.toList) : Lined gap (p.laid level gap) := by
  have ht : (textOf p.nodes).toList = [] ++ (textOf p.nodes).toList ++ [] := by simp
  exact Lined.single (sound_laid h hh ht (by simp [IsGap]) (by simp [IsGap]) hg level) rfl

lemma not_endsInComment_opening (hb : brace.isPunct openBrace) :
    ¬ EndsInComment (opening gap tx level ts brace seams).reading := by
  rw [Stretch.reading, opening, essences_snoc_bracket hb, endsInComment_append_cons (by decide)]
  simp [EndsInComment]

lemma lined_method (h : InPlace c.nodes) (hpa : c.params.isGroup "(")
    (hb : c.body.isGroup openBrace) (hg : IsGap gap.toList) : Lined gap (c.stretches gap) := by
  have hn : c.nodes = (c.head ++ c.params :: c.between) ++ [c.body] := by simp [MethodCut.nodes]
  rw [hn] at h
  obtain ⟨hf, hl, -, -⟩ := h.of_append_right.readsAs_group hb
  rw [closerOf_openBrace] at hl
  have hin := h.of_append_right.inside
  refine lined_block (sound_signature h.of_append_left hpa hf hg)
    (not_endsInComment_opening hf) ?_ ?_
  · refine lined_stack (fun gap hg p hp => ?_) (fun gap p hp => cons_ne_nil _ _) (by simp [IsGap]; decide)
    exact sound_piece (hin.splitStatements hp) (head?_splitStatements false _ p hp) 2 hg
  · exact fun gap hg => sound_closing hl (readsAs_nil_iff.2 rfl) hg

lemma lined_member {cut : MemberCut} (h : InPlace cut.nodes) (hs : cut.Shaped) (hg : IsGap gap.toList) :
    Lined gap (cut.stretches gap) := by
  cases cut with
  | gap node => exact Lined.nil gap
  | lone semicolon => exact Lined.nil gap
  | other blankBefore ns => exact sound_piece (p := ⟨ns, blankBefore⟩) h hs 1 hg
  | method blankBefore c post =>
    have hp : InPlace (c.nodes ++ post) := h
    exact lined_method hp.of_append_left hs.2.1 hs.2.2.1 hg

lemma InPlace.cutMembers (h : InPlace ns) {blank : Bool} {cut : MemberCut} (hc : cut ∈ cutMembers blank ns) :
    InPlace cut.nodes := by
  obtain ⟨pre, aft, rfl⟩ := exists_append_of_mem_cutMembers hc
  exact h.of_append_right.of_append_left

lemma lined_declaration {c : ClassCut} (h : InPlace (c.header ++ c.body :: c.trailing))
    (hbo : c.body.isGroup openBrace) (hga : IsGap gap.toList) : Lined gap (c.declaration gap) := by
  have hb : InPlace ([c.body] ++ c.trailing) := h.of_append_right
  obtain ⟨hf, hl, -, ht⟩ := h.of_append_right.readsAs_group hbo
  rw [closerOf_openBrace] at hl ht
  rw [slashAfter_closeBrace] at ht
  have hin := hb.of_append_left.inside
  refine lined_block (sound_header h.of_append_left hf hga) (not_endsInComment_opening hf) ?_ ?_
  · refine lined_stack (fun gap hga cut hc => ?_) (fun gap cut hc => ?_) (by simp [IsGap]; decide)
    · have hm := (mem_filter.1 hc).1
      exact lined_member (hin.cutMembers hm) (shaped_cutMembers false _ cut hm) hga
    · exact MemberCut.stretches_ne_nil (mem_filter.1 hc).2 gap
  · obtain ⟨g, g', hg, hg', hte⟩ := exists_trim (textOf c.trailing)
    rw [hte] at ht
    have hta : ReadsAs false false c.tail.toList _ := readsAs_spaced (ht.of_trimmed_behind hg hg')
        ((trim (textOf c.trailing)).toList.head? == some ';')
    exact fun gap hga => sound_closing hl hta hga

lemma lined_piece {p : Piece} (h : InPlace p.nodes) (hh : p.nodes.head?.any (fun n => !n.isBlank))
    (hga : IsGap gap.toList) : Lined gap (p.stretches gap) := by
  unfold Piece.stretches
  cases hcu : p.classCut? with
  | none => exact sound_piece h hh 0 hga
  | some c =>
    obtain ⟨hn, -, -, hb⟩ := Piece.classCut?_eq_some hcu
    rw [hn] at h
    dsimp only [ClassCut.stretches]
    split
    · exact lined_declaration h.of_append_right hb hga
    · rename_i hl
      obtain ⟨g, g', hg, hg', ht⟩ := exists_trim (textOf c.leading)
      have hf : c.leading.head?.any (fun n => !n.isBlank) := by
        rw [hn] at hh
        cases hc : c.leading with
        | nil =>
          rw [hc] at hl
          exact absurd rfl hl
        | cons n ns => simpa [hc] using hh
      exact (Lined.single (sound_laid h.of_append_left hf ht hg hg' hga 0) rfl).append
        (cons_ne_nil _ _) (lined_declaration h.of_append_right hb (by simp [IsGap]; decide)) rfl

lemma Piece.stretches_ne_nil (p : Piece) (gap : String) : p.stretches gap ≠ [] := by
  unfold Piece.stretches
  cases p.classCut? with
  | none => exact cons_ne_nil _ _
  | some c =>
    dsimp only [ClassCut.stretches]
    split <;> exact cons_ne_nil _ _

lemma lined_stretches (h : InPlace ns) : Lined "" (stretches ns) := by
  refine lined_stack (fun gap hg p hp => ?_) (fun gap p _ => p.stretches_ne_nil gap) (by simp [IsGap])
  exact lined_piece (h.splitStatements hp) (head?_splitStatements false ns p hp) hg

lemma readsAs_print_iff (h : InPlace nodes) :
    ReadsAs true true (Module.print ⟨(splitStatements false nodes).map Piece.item⟩).toList
      (essences (((stretches nodes).flatMap Stretch.tokens).map form)) ↔ PrintsSafely nodes := by
  have hl := lined_stretches h
  rw [toList_print, essences_tokens, readsAs_stretches_iff hl.sound hl.joins]
  · rfl
  · refine .inr (Option.all_eq_true _ _ |>.2 fun u hu => ?_)
    rw [hl.head u hu]
    rfl

lemma inPlace_forest {src : String} (ht : tokenize src = .ok ts) (hn : forest src ts = .ok nodes) : InPlace nodes := by
  refine ⟨balanced_forest hn, true, true, ?_⟩
  have hr := tokenize_eq_ok_iff.1 ⟨ts, ht, rfl⟩
  rw [toList_textOf, tokensOf_forest hn, hr.flatMap_text]
  exact hr

lemma essences_filter_nonblank (ts : List Token) :
    essences ((ts.filter fun t => t.kind != .blank).map form) = essences (ts.map form) := by
  induction ts with
  | nil => rfl
  | cons t ts ih =>
    by_cases hb : t.kind = .blank
    · rw [filter_cons_of_neg (by simp [hb]), ih, map_cons, essences_cons_blank hb]
    · rw [filter_cons_of_pos (by simp [hb]), map_cons, map_cons, essences_cons hb, essences_cons hb, ih]

lemma essences_stretches {src : String} (hto : tokenize src = .ok ts) (hn : forest src ts = .ok ns) :
    essences (((stretches ns).flatMap Stretch.tokens).map form) =
      essences ((ts.filter fun t => !(droppedTokens ns).contains t).map form) := by
  have hp := parted_stretches (inPlace_forest hto hn)
  rw [tokensOf_forest hn] at hp
  have hno : ts.Nodup := (tokensFrom_tiles (mapError_eq_ok.1 hto)).nodup
  have hf := hp.filter_eq (p := fun t => !(droppedTokens ns).contains t) ?_ ?_
  · rw [← essences_filter_nonblank, ← hf, essences_filter_nonblank]
  · intro t ht
    simpa using fun hd => hp.disjoint hno t hd ht
  · intro t ht
    simpa using ht

/-- The code of a script: its tokens without blanks and comments, as kinds and texts. -/
def codeForms (tokens : List Token) : List Form := (tokens.filter fun t => !t.isTrivia).map form

lemma codeForms_eq (ts : List Token) : codeForms ts = (essences (ts.map form)).filter fun e => !e.isTrivia := by
  induction ts with
  | nil => rfl
  | cons t ts ih =>
    have ht : t.form.isTrivia = t.isTrivia := rfl
    rw [codeForms] at ih ⊢
    by_cases hb : t.kind = .blank
    · rw [filter_cons_of_neg (by simp [Token.isTrivia, hb]), ih, map_cons, essences_cons_blank hb]
    · rw [map_cons, essences_cons hb, filter_cons, filter_cons, Form.isTrivia_essence, ht, ← ih]
      split
      · rename_i hc
        rw [map_cons, Form.essence_of_code (by simpa [ht] using hc)]
      · rfl

lemma shaped_memberCuts : ∀ cut ∈ memberCuts ns, cut.Shaped := by
  intro cut hc
  obtain ⟨p, -, hc⟩ := mem_flatMap.1 hc
  cases hcl : p.classCut? with
  | none =>
    rw [hcl] at hc
    cases hc
  | some c =>
    rw [hcl] at hc
    exact shaped_cutMembers false _ cut hc

lemma mem_droppedTokens {t : Token} (hc : t.isTrivia = false) : t ∈ droppedTokens nodes ↔ t ∈ loneSemicolons nodes := by
  rw [droppedTokens, loneSemicolons, mem_flatMap, mem_flatMap]
  refine exists_congr fun cut => and_congr_right fun hcu => ?_
  cases cut with
  | gap node => rfl
  | lone semicolon => rfl
  | other blankBefore nodes => rfl
  | method blankBefore c post =>
    obtain ⟨-, -, -, hb⟩ := shaped_memberCuts _ hcu
    refine iff_of_false (fun hm => ?_) not_mem_nil
    have ht : ∀ {ns : List Node}, (∀ n ∈ ns, n.isTrivia) → ∀ t ∈ tokensOf ns, t.isTrivia := by
      intro ns hns
      induction ns with
      | nil => simp
      | cons n ns ih =>
        obtain ⟨hn, hr⟩ := forall_mem_cons.1 hns
        cases n with
        | group o ms cl => cases hn
        | leaf u =>
          rw [tokensOf_cons, tokens_leaf]
          exact forall_mem_cons.2 ⟨hn, ih hr⟩
    rw [ht hb t hm] at hc
    cases hc

lemma isPunct_of_mem_loneSemicolons : ∀ t ∈ loneSemicolons ns, t.isPunct ";" := by
  intro t ht
  obtain ⟨cut, hc, ht⟩ := mem_flatMap.1 ht
  have hs := shaped_memberCuts cut hc
  cases cut with
  | lone semicolon =>
    cases semicolon with
    | leaf u =>
      obtain rfl : t = u := by simpa [MemberCut.semicolons] using ht
      exact hs
    | group o ms cl => cases hs
  | _ => cases ht

/-- **When a printed script keeps its code.** The printed script is read as the script was, comments included but for
those behind methods, exactly if it prints safely; and then its code is that of the script without the lone semicolons
among class members. -/
theorem print_reads_back_iff {source : String} {m : Module} (h : parseModule source = .ok m) :
    ∃ tokens nodes, tokenize source = .ok tokens ∧ forest source tokens = .ok nodes ∧
      ((∃ printed, tokenize m.print = .ok printed ∧ essences (printed.map Token.form) =
          essences ((tokens.filter fun t => !(droppedTokens nodes).contains t).map Token.form)) ↔
        PrintsSafely nodes) ∧
      (PrintsSafely nodes → ∃ printed, tokenize m.print = .ok printed ∧ codeForms printed =
        codeForms (tokens.filter fun t => !(loneSemicolons nodes).contains t)) := by
  obtain ⟨tokens, htokens, h⟩ := bind_eq_ok.1 h
  obtain ⟨nodes, hnodes, h⟩ := bind_eq_ok.1 h
  obtain rfl := ok.inj h
  have hiff := readsAs_print_iff (inPlace_forest htokens hnodes)
  rw [essences_stretches htokens hnodes] at hiff
  have hread : ∀ es, ReadsAs true true (Module.print ⟨(splitStatements false nodes).map Piece.item⟩).toList es ↔
      ∃ printed, tokenize (Module.print ⟨(splitStatements false nodes).map Piece.item⟩) = .ok printed ∧
        essences (printed.map Token.form) = es := by
    intro es
    constructor
    · rintro ⟨fs, hfs, rfl⟩
      obtain ⟨printed, hprinted, rfl⟩ := tokenize_eq_ok_iff.2 hfs
      exact ⟨printed, hprinted, rfl⟩
    · rintro ⟨printed, hprinted, rfl⟩
      exact ⟨_, tokenize_eq_ok_iff.1 ⟨printed, hprinted, rfl⟩, rfl⟩
  rw [hread] at hiff
  refine ⟨tokens, nodes, htokens, hnodes, hiff, fun hsafe => ?_⟩
  obtain ⟨printed, hprinted, hforms⟩ := hiff.2 hsafe
  refine ⟨printed, hprinted, ?_⟩
  rw [codeForms_eq, hforms, ← codeForms_eq, codeForms, codeForms, List.filter_filter, List.filter_filter]
  congr 1
  refine List.filter_congr fun t _ => ?_
  cases hcode : t.isTrivia with
  | true => rfl
  | false => simp [mem_droppedTokens hcode]

theorem print_reads_back_iff_semicolon :
    ∃ m tokens nodes printed, parseModule "class A\x7bm()\x7b\x7d;\x7d" = .ok m ∧
      tokenize "class A\x7bm()\x7b\x7d;\x7d" = .ok tokens ∧ forest "class A\x7bm()\x7b\x7d;\x7d" tokens = .ok nodes ∧
      PrintsSafely nodes ∧ tokenize m.print = .ok printed ∧
      codeForms printed = codeForms (tokens.filter fun t => !(loneSemicolons nodes).contains t) := by
  have heval : ∃ m printed tokens nodes, parseModule "class A\x7bm()\x7b\x7d;\x7d" = .ok m ∧
      tokenize m.print = .ok printed ∧ tokenize "class A\x7bm()\x7b\x7d;\x7d" = .ok tokens ∧
      forest "class A\x7bm()\x7b\x7d;\x7d" tokens = .ok nodes ∧ essences (printed.map Token.form) =
        essences ((tokens.filter fun t => !(droppedTokens nodes).contains t).map Token.form) :=
    ⟨_, _, _, _, by cbv, by cbv, by cbv, by cbv, by cbv⟩
  obtain ⟨m, printed, tokens, nodes, hparse, hprinted, htokens, hnodes, hforms⟩ := heval
  obtain ⟨tokens', nodes', htokens', hnodes', hiff, hcode⟩ := print_reads_back_iff hparse
  obtain rfl : tokens = tokens' := ok.inj (htokens.symm.trans htokens')
  obtain rfl : nodes = nodes' := ok.inj (hnodes.symm.trans hnodes')
  have hsafe := hiff.1 ⟨printed, hprinted, hforms⟩
  obtain ⟨printed', hprinted', hcode⟩ := hcode hsafe
  exact ⟨m, tokens, nodes, printed', hparse, htokens, hnodes, hsafe, hprinted', hcode⟩

example : (parseModule "class A\x7bm(a//\n)\x7b\x7d\x7d").toOption.map Module.print =
    some "class A \x7b\n  m(a//) \x7b\x7d\n\x7d" := by
  cbv

end CustomElement.Script
