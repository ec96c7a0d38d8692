import CustomElement.Proofs.Script.NormalForm

/-!
# Normalizing once and for all

The normal form of a script is read as the tokens of the script, with literals requoted and with trailing commas
(`normalize_tokens`).
-/

namespace CustomElement.Script

open List Text

variable {c : Char} {cs x : List Char} {source : String} {t : Token} {ms : List Node} {tokens : List Token}
  {nodes : List Node}

def UnixEnds (cs : List Char) : Prop := cs.IsChain fun a b => a = '\r' → b ≠ '\n'

lemma unixEnds_iff : UnixEnds cs ↔ ¬ ['\r', '\n'] <:+: cs := by
  induction cs with
  | nil => simp [UnixEnds]
  | cons c cs ih =>
    rw [UnixEnds, isChain_cons, ← UnixEnds, ih, infix_cons_iff, not_or]
    refine and_congr_left fun _ => ?_
    cases cs with
    | nil => simp
    | cons d cs => simp [eq_comm]

lemma unixEnds_of_notMem (h : '\r' ∉ cs) : UnixEnds cs :=
  unixEnds_iff.2 fun hp => h (hp.subset (by simp))

lemma UnixEnds.unixLines_eq (h : UnixEnds cs) : unixLines cs = cs := by
  induction cs with
  | nil => rfl
  | cons c cs ih =>
    obtain ⟨hc, hcs⟩ := isChain_cons.1 h
    rw [unixLines.eq_2 _ _ fun tl hr ht => hc '\n' (by simp [ht]) hr rfl, ih hcs]

lemma unixEnds_unixLines (h : ¬ ['\r', '\r', '\n'] <:+: cs) : UnixEnds (unixLines cs) := by
  fun_induction unixLines cs with
  | case1 cs ih =>
    refine isChain_cons.2 ⟨fun _ _ hf => absurd hf (by decide), ih fun hm => h ?_⟩
    exact hm.trans ((suffix_cons _ _).trans (suffix_cons _ _)).isInfix
  | case2 c cs hp ih =>
    refine isChain_cons.2 ⟨?_, ih fun hm => h (hm.trans (suffix_cons _ _).isInfix)⟩
    rintro d hd rfl rfl
    -- The line feed that comes next is one of the script, behind a carriage return or not.
    cases cs with
    | nil => simp [unixLines] at hd
    | cons c cs =>
      by_cases hr : ∃ tl, c = '\r' ∧ cs = '\n' :: tl
      · obtain ⟨tl, rfl, rfl⟩ := hr
        exact h ⟨[], tl, rfl⟩
      · rw [unixLines.eq_2 _ _ fun tl hc hcs => hr ⟨tl, hc, hcs⟩] at hd
        exact hp cs rfl (by simpa using hd)
  | case3 => exact .nil

def FeedsLike (x y : List Char) : Prop := y.head? = some '\n' → x.head? = some '\n'

namespace UnixEnds

lemma cons_of_ne (hc : c ≠ '\r') (h : UnixEnds x) : UnixEnds (c :: x) :=
  isChain_cons.2 ⟨fun _ _ hr => absurd hr hc, h⟩

lemma append_left {a y : List Char} (h : UnixEnds (a ++ x)) (hy : UnixEnds y) (hf : FeedsLike x y) :
    UnixEnds (a ++ y) ∧ FeedsLike (a ++ x) (a ++ y) := by
  obtain ⟨ha, -, hs⟩ := isChain_append.1 h
  refine ⟨isChain_append.2 ⟨ha, hy, fun c hc d hd hr hfe => ?_⟩, fun hh => ?_⟩
  · exact hs c hc '\n' (hf (hfe ▸ hd)) hr rfl
  · cases a with
    | nil => exact hf hh
    | cons c a => exact hh

lemma requoteText {old new : Char} (h : UnixEnds x) (ho : old ≠ '\n') :
    UnixEnds (requoteText old new x) ∧ FeedsLike x (Script.requoteText old new x) := by
  fun_induction Script.requoteText old new x with
  | case1 => exact ⟨.nil, id⟩
  | case2 cs ih =>
    have hcs := (isChain_cons.1 h).2
    obtain ⟨hm, hf⟩ := ih (isChain_cons.1 hcs).2
    exact ⟨(append_left (a := [old]) hcs hm hf).1, fun hh => absurd (some.inj hh) ho⟩
  | case3 c cs hc ih =>
    obtain ⟨hm, hf⟩ := ih (isChain_cons.1 (isChain_cons.1 h).2).2
    exact append_left (a := ['\\', c]) h hm hf
  | case4 cs he ih =>
    obtain ⟨hm, hf⟩ := ih (isChain_cons.1 h).2
    exact ⟨cons_of_ne (by decide) (append_left (a := [new]) h hm hf).1, fun hh => absurd (some.inj hh) (by decide)⟩
  | case5 c cs he hc ih =>
    obtain ⟨hm, hf⟩ := ih (isChain_cons.1 h).2
    exact append_left (a := [c]) h hm hf

lemma requoted (h : UnixEnds (charsOf tokens)) : UnixEnds (charsOf (tokens.map Token.requoted)) ∧
      FeedsLike (charsOf tokens) (charsOf (tokens.map Token.requoted)) := by
  induction tokens with
  | nil => exact ⟨.nil, id⟩
  | cons t tokens ih =>
    rw [charsOf_cons] at h
    obtain ⟨ht, hre, -⟩ := isChain_append.1 h
    obtain ⟨hm, hfe⟩ := ih hre
    rw [map_cons, charsOf_cons, charsOf_cons]
    rcases t.requoted_eq_or with hs | ⟨old, x, last, -, hl, ho, -, hc⟩
    · rw [hs]
      exact append_left h hm hfe
    · have hq : ∀ c : Char, c = '"' ∨ c = '\'' → c ≠ '\n' ∧ c ≠ '\r' := by
        rintro c (rfl | rfl) <;> decide
      obtain ⟨hf, hr⟩ := hq _ (preferredQuote_eq x)
      rw [hl] at ht
      have hin := (isChain_append.1 (isChain_cons.1 ht).2).1
      have hqu : UnixEnds (Script.requoteText old (preferredQuote x) x) := (UnixEnds.requoteText hin (hq old ho.symm).1).1
      -- Quotes end no line, and stand before and behind the text.
      rw [hc, cons_append, append_assoc, singleton_append]
      refine ⟨cons_of_ne hr (isChain_append.2 ⟨hqu, cons_of_ne hr hm, ?_⟩), fun hh => absurd (Option.some.inj hh) hf⟩
      rintro c - d hd - rfl
      exact hf (Option.some.inj hd)

lemma trailingCommas {ts us : List Token} (h : UnixEnds (charsOf ts)) (hc : TrailingCommas ts us) :
    UnixEnds (charsOf us) ∧ FeedsLike (charsOf ts) (charsOf us) := by
  induction hc with
  | nil => exact ⟨.nil, id⟩
  | keep t more ih =>
    obtain ⟨hm, hf⟩ := ih (isChain_append.1 h).2.1
    exact append_left h hm hf
  | @comma st t ts us hcd hco ho hcl more ih =>
    obtain ⟨hm, -⟩ := ih (isChain_append.1 h).2.1
    rw [charsOf_cons t ts, charsOf_cons t, TrailingCommas.charsOf_comma]
    exact append_left h (cons_of_ne (by decide) hm) fun hh => absurd (Option.some.inj hh) (by decide)

end UnixEnds

/-- A script in normal form, and its nodes: line ends, quotes and commas are in place. -/
structure InNormalForm (source : String) (nodes : List Node) : Prop where
  read : ∃ tokens, tokenize source = .ok tokens ∧ forest source tokens = .ok nodes
  unix : UnixEnds source.toList
  requoted : ∀ t ∈ Node.tokensOf nodes, t.requoted = t
  settled : Settled .block 0 {} nodes

lemma map_requoted (h : ∀ t ∈ tokens, t.requoted = t) : tokens.map Token.requoted = tokens :=
  (map_congr_left h).trans tokens.map_id

lemma normalize_eq_ok_iff {normal : String} (hu : UnixEnds source.toList) :
    normalize source = .ok normal ↔ ∃ tokens ns, tokenize source = .ok tokens ∧
      forest source (tokens.map Token.requoted) = .ok ns ∧ Node.textOf (withTrailingCommas ns) = normal := by
  unfold normalize
  simp only [hu.unixLines_eq, String.ofList_toList, bind_eq_ok, pure, Except.pure, Except.ok.injEq]
  exact exists_congr fun tokens => by simp only [exists_and_left]

lemma normalize_unixLines (hu : UnixEnds (unixLines source.toList)) :
    normalize (String.ofList (unixLines source.toList)) = normalize source := by
  unfold normalize
  rw [String.toList_ofList, hu.unixLines_eq]

section

variable {tokens : List Token} (htokens : tokenize source = .ok tokens) (hforest : forest source tokens = .ok ms)

include htokens hforest

lemma normalize_of_requoted (hu : UnixEnds source.toList) (hr : ∀ t ∈ tokens, t.requoted = t) :
    normalize source = .ok (Node.textOf (withTrailingCommas ms)) :=
  (normalize_eq_ok_iff hu).2 ⟨tokens, ms, htokens, by rw [map_requoted hr, hforest], rfl⟩

lemma charsOf_forest : charsOf (Node.tokensOf ms) = source.toList := by
  rw [tokensOf_forest hforest, ← flatMap_form, (tokenize_eq_ok_iff.1 ⟨tokens, htokens, rfl⟩).flatMap_text]

end

lemma InNormalForm.normalize_eq (h : InNormalForm source nodes) : normalize source = .ok source := by
  obtain ⟨tokens, htokens, hforest⟩ := h.read
  have hs : withTrailingCommas nodes = nodes := h.settled
  have hte : Node.textOf nodes = source := by
    apply String.toList_injective
    rw [toList_textOf_eq_charsOf, charsOf_forest htokens hforest]
  rw [normalize_of_requoted htokens hforest h.unix fun t ht => h.requoted t (tokensOf_forest hforest ▸ ht), hs, hte]

lemma Token.requoted_eq_self_iff : t.requoted = t ↔ (t.kind = .string → (requote t.text).getD t.text = t.text) := by
  obtain ⟨kind, x, st⟩ := t
  by_cases hk : kind = .string <;> simp [Token.requoted, hk]

lemma exists_forest (hn : ∀ n ∈ ms, n.Balanced)
    (h : tokens.map Token.form = (Node.tokensOf ms).map Token.form) (source : String) :
    ∃ ms', forest source tokens = .ok ms' ∧ ms'.map Node.bare = ms.map Node.bare :=
  gentle_bare.exists_forest hn (map_bare_of_map_form h) source

section Given

variable {tokens : List Token} {ns : List Node} (htokens : tokenize source = .ok tokens)
  (hforest : forest source (tokens.map Token.requoted) = .ok ns)

include hforest in
lemma trailingCommas_normalForm : TrailingCommas (tokens.map Token.requoted) (Node.tokensOf (withTrailingCommas ns)) := by
  have ha := trailingCommas_addCommas .block 0 {} ns (balanced_forest hforest) .nil
  rwa [append_nil, append_nil, tokensOf_forest hforest] at ha

include htokens hforest

lemma reads_normalForm : Reads true true (Node.textOf (withTrailingCommas ns)).toList
    ((Node.tokensOf (withTrailingCommas ns)).map Token.form) := by
  have hr := (tokenize_eq_ok_iff.1 ⟨tokens, htokens, rfl⟩).requoted
  rw [toList_textOf_eq_charsOf]
  exact hr.trailingCommas (trailingCommas_normalForm hforest)

lemma forms_normalForm {ts' : List Token} (h : tokenize (Node.textOf (withTrailingCommas ns)) = .ok ts') :
    ts'.map Token.form = (Node.tokensOf (withTrailingCommas ns)).map Token.form :=
  (reads_normalForm htokens hforest).unique (tokenize_eq_ok_iff.1 ⟨ts', h, rfl⟩)

lemma origin_of_mem {tokens' : List Token} (h : tokenize (Node.textOf (withTrailingCommas ns)) = .ok tokens')
    (ht : t ∈ tokens') :
    (∃ u ∈ tokens, t.kind = u.kind ∧ t.text = u.requoted.text) ∨ t.kind = .punct ∧ t.text = "," := by
  obtain ⟨u, hu, hf⟩ := mem_map.1 (forms_normalForm htokens hforest h ▸ mem_map_of_mem ht)
  obtain ⟨hk, hte⟩ : u.kind = t.kind ∧ u.text = t.text := by
    simpa [Token.form, Form.mk.injEq, String.toList_inj] using hf
  rw [← hk, ← hte]
  rcases (trailingCommas_normalForm hforest).mem hu with hu | hc
  · obtain ⟨v, hv, rfl⟩ := mem_map.1 hu
    exact .inl ⟨v, hv, v.kind_requoted, rfl⟩
  · exact .inr hc

lemma unixEnds_normalForm (hu : UnixEnds source.toList) : UnixEnds (Node.textOf (withTrailingCommas ns)).toList := by
  have ht := (tokenize_eq_ok_iff.1 ⟨tokens, htokens, rfl⟩).flatMap_text
  rw [flatMap_form] at ht
  rw [← ht] at hu
  rw [toList_textOf_eq_charsOf]
  exact (hu.requoted.1.trailingCommas (trailingCommas_normalForm hforest)).1

lemma exists_inNormalForm (hu : UnixEnds source.toList) :
    ∃ nodes, InNormalForm (Node.textOf (withTrailingCommas ns)) nodes := by
  obtain ⟨ts', hto', hf⟩ := tokenize_eq_ok_iff.2 (reads_normalForm htokens hforest)
  have hb := balanced_addCommas .block 0 {} ns (balanced_forest hforest)
  obtain ⟨nodes, hn, hba⟩ := exists_forest hb hf (Node.textOf (withTrailingCommas ns))
  refine ⟨nodes, ⟨ts', hto', hn⟩, unixEnds_normalForm htokens hforest hu, fun t ht => ?_, ?_⟩
  · rw [tokensOf_forest hn] at ht
    rcases origin_of_mem htokens hforest hto' ht with ⟨u, -, hk, hte⟩ | ⟨hk, -⟩
    · have hq := Token.requoted_eq_self_iff.1 u.requoted_requoted
      rw [Token.kind_requoted] at hq
      exact Token.requoted_eq_self_iff.2 (by rwa [hk, hte])
    · exact Token.requoted_of_ne (by simp [hk])
  · exact (Settled.congr gentle_bare hb (balanced_forest hn) rfl hba (settled_addCommas .block 0 {} ns).1).1

lemma uncommented_normalForm (hc : ∀ t ∈ tokens, t.isComment = false)
    (h : InNormalForm (Node.textOf (withTrailingCommas ns)) nodes) : Uncommented nodes := by
  obtain ⟨tokens', hto', hn⟩ := h.read
  intro t ht
  rw [tokensOf_forest hn] at ht
  rcases origin_of_mem htokens hforest hto' ht with ⟨u, hu, hk, -⟩ | ⟨hk, -⟩
  · rw [Token.isComment, hk, ← Token.isComment, hc u hu]
  · simp [Token.isComment, hk]

end Given

lemma mem_requoteText {old new : Char} (h : c ∈ requoteText old new x) : c ∈ x ∨ c = '\\' := by
  fun_induction requoteText old new x with
  | case1 => cases h
  | case2 cs ih | case3 d cs hd ih | case4 cs he ih | case5 d cs he hd ih =>
    simp only [mem_cons] at h ⊢
    tauto

lemma mem_requoted (h : c ∈ t.requoted.text.toList) : c ∈ t.text.toList ∨ c ∈ ['"', '\'', '\\'] := by
  rcases t.requoted_eq_or with hs | ⟨old, x, last, -, ht, -, -, hc⟩
  · exact .inl (by rwa [hs] at h)
  · have hqu : preferredQuote x ∈ ['"', '\'', '\\'] := by
      rcases preferredQuote_eq x with hq | hq <;> rw [hq] <;> decide
    rw [hc, mem_cons, mem_append, mem_singleton] at h
    rcases h with rfl | h | rfl
    · exact .inr hqu
    · rcases mem_requoteText h with h | rfl
      · exact .inl (by simp [ht, h])
      · exact .inr (by decide)
    · exact .inr hqu

lemma mem_charsOf : c ∈ charsOf tokens ↔ ∃ t ∈ tokens, c ∈ t.text.toList := by
  rw [charsOf, mem_flatMap]

lemma mem_normalForm {ns : List Node} (htokens : tokenize source = .ok tokens)
    (hforest : forest source (tokens.map Token.requoted) = .ok ns)
    (hc : c ∈ (Node.textOf (withTrailingCommas ns)).toList) : c ∈ source.toList ∨ c ∈ ['"', '\'', '\\', ','] := by
  have ht := (tokenize_eq_ok_iff.1 ⟨tokens, htokens, rfl⟩).flatMap_text
  rw [flatMap_form] at ht
  rw [toList_textOf_eq_charsOf, mem_charsOf] at hc
  obtain ⟨u, hu, hc⟩ := hc
  rcases (trailingCommas_normalForm hforest).mem hu with hu | ⟨-, hco⟩
  · obtain ⟨v, hv, rfl⟩ := mem_map.1 hu
    exact (mem_requoted hc).imp (fun hc => ht ▸ mem_charsOf.2 ⟨v, hv, hc⟩) fun hc => mem_append_left [','] hc
  · rw [hco] at hc
    exact .inr (mem_append_right ['"', '\'', '\\'] hc)

/-- **What normalizing changes.** Without carriage returns before line feeds, the normal form of a script is read as the
tokens of the script, trivia included, with its literals requoted and with trailing commas. -/
theorem normalize_tokens {source normal : String} (hlines : ¬ ['\r', '\n'] <:+: source.toList)
    (h : normalize source = .ok normal) :
    ∃ tokens tokens' commas, tokenize source = .ok tokens ∧ tokenize normal = .ok tokens' ∧
      TrailingCommas (tokens.map Token.requoted) commas ∧ tokens'.map Token.form = commas.map Token.form := by
  obtain ⟨tokens, ns, htokens, hforest, rfl⟩ := (normalize_eq_ok_iff (unixEnds_iff.2 hlines)).1 h
  obtain ⟨tokens', htokens', hforms⟩ := tokenize_eq_ok_iff.2 (reads_normalForm htokens hforest)
  exact ⟨tokens, tokens', _, htokens, htokens', trailingCommas_normalForm hforest, hforms⟩

theorem normalize_tokens_comment :
    ∃ tokens tokens' commas, ¬ ['\r', '\n'] <:+: "[\n\"a\" // b\n]".toList ∧
      normalize "[\n\"a\" // b\n]" = .ok "[\n'a', // b\n]" ∧
      tokenize "[\n\"a\" // b\n]" = .ok tokens ∧
      tokenize "[\n'a', // b\n]" = .ok tokens' ∧
      TrailingCommas (tokens.map Token.requoted) commas ∧ tokens'.map Token.form = commas.map Token.form := by
  have hlines : ¬ ['\r', '\n'] <:+: "[\n\"a\" // b\n]".toList := by decide
  have hnormal : normalize "[\n\"a\" // b\n]" = .ok "[\n'a', // b\n]" := by cbv
  obtain ⟨tokens, tokens', commas, h⟩ := normalize_tokens hlines hnormal
  exact ⟨tokens, tokens', commas, hlines, hnormal, h⟩

/-- **Normalizing twice is normalizing once**, unless two carriage returns stand before a line feed, of which one is
taken out at a time. -/
theorem normalize_normalize {source normal : String} (hlines : ¬ ['\r', '\r', '\n'] <:+: source.toList)
    (h : normalize source = .ok normal) : normalize normal = .ok normal := by
  have hunix := unixEnds_unixLines hlines
  rw [← normalize_unixLines hunix] at h
  have hsource : UnixEnds (String.ofList (unixLines source.toList)).toList := by rwa [toList_ofList]
  obtain ⟨tokens, ns, htokens, hforest, rfl⟩ := (normalize_eq_ok_iff hsource).1 h
  obtain ⟨nodes, hform⟩ := exists_inNormalForm htokens hforest hsource
  exact hform.normalize_eq

theorem normalize_normalize_ternary :
    ¬ ['\r', '\r', '\n'] <:+: "a ? \x7b\r\nb\r\n\x7d : [\r\rc\n]".toList ∧
      normalize "a ? \x7b\r\nb\r\n\x7d : [\r\rc\n]" = .ok "a ? \x7b\nb,\n\x7d : [\r\rc,\n]" ∧
      normalize "a ? \x7b\nb,\n\x7d : [\r\rc,\n]" = .ok "a ? \x7b\nb,\n\x7d : [\r\rc,\n]" := by
  have hlines : ¬ ['\r', '\r', '\n'] <:+: "a ? \x7b\r\nb\r\n\x7d : [\r\rc\n]".toList := by decide
  have hnormal : normalize "a ? \x7b\r\nb\r\n\x7d : [\r\rc\n]" = .ok "a ? \x7b\nb,\n\x7d : [\r\rc,\n]" := by cbv
  exact ⟨hlines, hnormal, normalize_normalize hlines hnormal⟩

example : (normalize "\r\r\n").toOption = some "\r\n" := by
  cbv

end CustomElement.Script
