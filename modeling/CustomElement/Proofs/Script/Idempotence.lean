import CustomElement.Proofs.Script.Normalizing
import CustomElement.Proofs.Script.Relining
import CustomElement.Proofs.Script.Reprinting

/-!
# Formatting twice

A formatted script without comments is formatted to itself if it calls for no comma that it does not have.
-/

namespace CustomElement.Script

open List Text

variable {ns : List Node} {tokens : List Token} {x : String} {nodes : List Node}

def drawn : List Char := [' ', '\n', '(', ')', '\x7b', '\x7d']

/-- Every character of `cs` is one of `as`, or one that printing writes. -/
def DrawnFrom (as cs : List Char) : Prop := ∀ c ∈ cs, c ∈ as ∨ c ∈ drawn

namespace DrawnFrom

variable {as bs cs ds : List Char}

lemma of_subset (h : cs ⊆ as) : DrawnFrom as cs := fun _ hc => .inl (h hc)

lemma of_drawn (h : cs ⊆ drawn) : DrawnFrom as cs := fun _ hc => .inr (h hc)

lemma append (hcs : DrawnFrom as cs) (hd : DrawnFrom as ds) : DrawnFrom as (cs ++ ds) := fun c hc =>
  (mem_append.1 hc).elim (hcs c) (hd c)

lemma cons {c : Char} (hc : c ∈ drawn) (hcs : DrawnFrom as cs) : DrawnFrom as (c :: cs) := fun d hd =>
  (mem_cons.1 hd).elim (fun h => .inr (h ▸ hc)) (hcs d)

lemma trans (h : DrawnFrom bs cs) (ha : DrawnFrom as bs) : DrawnFrom as cs := fun c hc =>
  (h c hc).elim (ha c) .inr

lemma flatMap {α : Type*} {f : α → List Char} {xs : List α} (h : ∀ x ∈ xs, DrawnFrom as (f x)) :
    DrawnFrom as (xs.flatMap f) := by
  intro c hc
  obtain ⟨x, hx, hc⟩ := mem_flatMap.1 hc
  exact h x hx c hc

end DrawnFrom

lemma charsOf_subset {ts us : List Token} (h : ts ⊆ us) : charsOf ts ⊆ charsOf us := by
  intro c hc
  obtain ⟨t, ht, hc⟩ := mem_charsOf.1 hc
  exact mem_charsOf.2 ⟨t, h ht, hc⟩

lemma toList_trim_subset (x : String) : (trim x).toList ⊆ x.toList := by
  obtain ⟨g, g', -, -, ht⟩ := exists_trim x
  intro c hc
  rw [ht]
  simp [hc]

lemma subset_drawn_of_layout {cs : List Char} (h : cs ⊆ layoutChars) : cs ⊆ drawn :=
  List.Subset.trans h (by simp [drawn])

lemma subset_drawn_indentation (l : Nat) : (indentation l).toList ⊆ drawn :=
  subset_drawn_of_layout (indentation_subset l)

lemma subset_drawn_newline : "\n".toList ⊆ drawn := by simp [drawn]

lemma subset_drawn_newlines (b : Bool) : (if b then "\n\n" else "\n").toList ⊆ drawn := by
  cases b <;> simp [drawn]

lemma drawnFrom_reindent (x : String) (l : Nat) : DrawnFrom x.toList (reindent x l).toList := by
  cases hto : tokenize x with
  | error fault =>
    rw [reindent, hto, toList_append]
    exact .append (.of_drawn (subset_drawn_indentation l)) (.of_subset (toList_trim_subset x))
  | ok tokens =>
    obtain ⟨lead, body, bs, heq, -, -, -, -, -, hla⟩ := exists_laidOut hto l
    obtain ⟨n, hl⟩ := exists_layoutOf l tokens
    have hb : charsOf body ⊆ x.toList := by
      rw [← (tokenize_eq_ok_iff.1 ⟨tokens, hto, rfl⟩).flatMap_text, flatMap_form, heq]
      exact charsOf_subset fun t ht => by simp [ht]
    rw [reindent_of_tokenize hto, hl]
    refine .append (.of_drawn (subset_drawn_indentation n)) fun c hc => ?_
    exact (mem_append.1 (hla.respaced.subset hc)).imp (hb ·) (subset_drawn_of_layout (List.Subset.refl _) ·)

def Stretch.Drawn (u : Stretch) : Prop := DrawnFrom (charsOf u.tokens) u.chars

section Drawn

variable {gap : String}

lemma drawn_laid (hg : gap.toList ⊆ drawn) {ns : List Node}
    (ht : x.toList ⊆ (textOf ns).toList) (l : Nat) : (laid gap x l ns).Drawn := by
  rw [toList_textOf_eq_charsOf] at ht
  exact .append (.of_drawn hg) ((drawnFrom_reindent x l).trans (.of_subset ht))

lemma drawn_opening (hg : gap.toList ⊆ drawn)
    (ht : DrawnFrom (charsOf tokens) x.toList) (l : Nat) (brace : Token) (seams : List (List Token)) :
    (opening gap x l tokens brace seams).Drawn := by
  have hb : " \x7b".toList ⊆ drawn := by simp [drawn]
  have ha : DrawnFrom (charsOf (tokens ++ [brace])) (reindent x l ++ " \x7b").toList := by
    rw [toList_append, charsOf_append]
    exact .append (((drawnFrom_reindent x l).trans ht).trans (.of_subset (subset_append_left _ _)))
      (.of_drawn hb)
  exact .append (.of_drawn hg) ha

lemma drawn_block {fr : Stretch} {inner : List Stretch} {l : Nat} {tl : String}
    (hf : fr.Drawn) (hin : ∀ u ∈ inner, u.Drawn) (ht : DrawnFrom (charsOf tokens) tl.toList) :
    ∀ u ∈ block fr inner l tl tokens, u.Drawn := by
  intro u hu
  rw [block, mem_cons, mem_append, mem_singleton] at hu
  rcases hu with rfl | hu | rfl
  · exact hf
  · exact hin u hu
  · have hg : (if inner.isEmpty then "" else "\n" ++ indentation l).toList ⊆ drawn := by
      split
      · simp
      · rw [toList_append]
        exact append_subset.2 ⟨subset_drawn_newline, subset_drawn_indentation l⟩
    have hb : closeBrace.toList ⊆ drawn := by simp [closeBrace, drawn]
    have ha : DrawnFrom (charsOf tokens) (closeBrace ++ tl).toList := by
      rw [toList_append]
      exact .append (.of_drawn hb) ht
    exact .append (.of_drawn hg) ha

lemma drawn_stack {α : Type} {blank : α → Bool} {entry : String → α → List Stretch} {as : List α}
    (he : ∀ gap : String, (gap.toList ⊆ drawn) → ∀ a ∈ as, ∀ u ∈ entry gap a, u.Drawn)
    (hg : gap.toList ⊆ drawn) : ∀ u ∈ stack gap blank entry as, u.Drawn := by
  cases as with
  | nil => simp [stack]
  | cons a as =>
    intro u hu
    rw [stack, mem_append, mem_flatMap] at hu
    rcases hu with hu | ⟨b, hb, hu⟩
    · exact he gap hg a mem_cons_self u hu
    · exact he _ (subset_drawn_newlines _) b (mem_cons_of_mem _ hb) u hu

lemma drawnFrom_trim (ns : List Node) : DrawnFrom (charsOf (tokensOf ns)) (trim (textOf ns)).toList := by
  rw [← toList_textOf_eq_charsOf]
  exact .of_subset (toList_trim_subset _)

lemma drawnFrom_signature (c : MethodCut) : DrawnFrom (charsOf c.signature) c.method.signature.toList := by
  have hs : " ".toList ⊆ drawn := by simp [drawn]
  have hin : tokensOf c.params.inside ⊆ c.params.tokens := by
    cases c.params with
    | leaf t => simp [Node.inside]
    | group o ms cl =>
      intro t ht
      simp [Node.inside] at ht
      simp [ht]
  -- The three parts and the parentheses.
  have hp : ∀ ns, tokensOf ns ⊆ c.signature → DrawnFrom (charsOf c.signature) (trim (textOf ns)).toList := fun ns hn =>
    (drawnFrom_trim ns).trans (.of_subset (charsOf_subset hn))
  have hh : DrawnFrom (charsOf c.signature) c.method.head.toList := hp c.head fun t ht => by simp [MethodCut.signature, ht]
  have hpa : DrawnFrom (charsOf c.signature) c.method.params.toList :=
    hp c.params.inside fun t ht => by simp [MethodCut.signature, hin ht]
  have hb : DrawnFrom (charsOf c.signature) c.method.between.toList :=
    hp c.between fun t ht => by simp [MethodCut.signature, ht]
  rw [Method.toList_signature]
  refine hh.append (.cons (by simp [drawn]) (hpa.append (.cons (by simp [drawn]) ?_)))
  split
  · exact .of_drawn (by simp)
  · split
    · exact hb
    · rw [toList_append]
      exact .append (.of_drawn hs) hb

lemma MethodCut.drawn_stretches (hg : gap.toList ⊆ drawn) (c : MethodCut) : ∀ u ∈ c.stretches gap, u.Drawn := by
  refine drawn_block (drawn_opening hg (drawnFrom_signature c) 1 _ _) ?_ (.of_drawn (by simp))
  refine drawn_stack (fun gap hg p _ u hu => ?_) subset_drawn_newline
  rw [Piece.laid, mem_singleton] at hu
  rw [hu]
  exact drawn_laid hg (List.Subset.refl _) 2

lemma MemberCut.drawn_stretches (hg : gap.toList ⊆ drawn) (cut : MemberCut) : ∀ u ∈ cut.stretches gap, u.Drawn := by
  cases cut with
  | gap node | lone semicolon => simp [MemberCut.stretches]
  | other blankBefore ns =>
    intro u hu
    rw [MemberCut.stretches, mem_singleton] at hu
    rw [hu]
    exact drawn_laid hg (List.Subset.refl _) 1
  | method blankBefore c post => exact c.drawn_stretches hg

lemma drawnFrom_tail (c : ClassCut) (brace : Token) : DrawnFrom (charsOf (brace :: tokensOf c.trailing)) c.tail.toList := by
  have ht : DrawnFrom (charsOf (brace :: tokensOf c.trailing)) (trim (textOf c.trailing)).toList :=
    (drawnFrom_trim c.trailing).trans (.of_subset (charsOf_subset (subset_cons_self brace _)))
  simp only [ClassCut.tail]
  split
  · exact .of_drawn (by simp)
  · split
    · exact ht
    · rw [toList_append]
      exact .append (.of_drawn (by simp [drawn])) ht

lemma ClassCut.drawn_declaration (hg : gap.toList ⊆ drawn) (c : ClassCut) : ∀ u ∈ c.declaration gap, u.Drawn := by
  have hh : DrawnFrom (charsOf (tokensOf c.header)) (trimEnd (textOf c.header)).toList := by
    rw [← toList_textOf_eq_charsOf, trimEnd, toList_ofList]
    exact .of_subset fun _ => mem_of_mem_trimEndList
  refine drawn_block (drawn_opening hg hh 0 _ _) ?_ (drawnFrom_tail c _)
  exact drawn_stack (fun gap hg cut _ => cut.drawn_stretches hg) subset_drawn_newline

lemma Piece.drawn_stretches (hg : gap.toList ⊆ drawn) (p : Piece) : ∀ u ∈ p.stretches gap, u.Drawn := by
  unfold Piece.stretches
  cases p.classCut? with
  | none =>
    intro u hu
    rw [mem_singleton.1 hu]
    exact drawn_laid hg (List.Subset.refl _) 0
  | some c =>
    dsimp only [ClassCut.stretches]
    split
    · exact c.drawn_declaration hg
    · exact forall_mem_cons.2 ⟨drawn_laid hg (toList_trim_subset _) 0, c.drawn_declaration subset_drawn_newline⟩

end Drawn

lemma drawnFrom_print (h : InPlace nodes) : DrawnFrom (charsOf (tokensOf nodes))
    (Module.print ⟨(splitStatements false nodes).map Piece.item⟩).toList := by
  rw [toList_print]
  refine .flatMap fun u hu => ?_
  have hd : u.Drawn := drawn_stack (fun gap hg p _ => p.drawn_stretches hg) (by simp) u hu
  exact hd.trans (.of_subset (charsOf_subset fun t ht =>
    (parted_stretches h).kept_sublist.subset (List.mem_flatMap.2 ⟨u, hu, ht⟩)))

lemma ink_essences (h : ∀ t ∈ tokens, t.kind = .blank → IsGap t.text.toList) :
    ((essences (tokens.map form)).flatMap fun e => ink e.text) = ink (charsOf tokens) := by
  induction tokens with
  | nil => rfl
  | cons t tokens ih =>
    obtain ⟨ht, hto⟩ := forall_mem_cons.1 h
    rw [map_cons, charsOf_cons, ink_append, ← ih hto]
    by_cases hb : t.kind = .blank
    · rw [essences_cons_blank hb, (ht hb).ink, nil_append]
    · rw [essences_cons hb, flatMap_cons, Form.ink_essence]
      rfl

lemma count_comma_ink (cs : List Char) : (ink cs).count ',' = cs.count ',' := count_filter (by decide)

lemma Parted.count_comma {all kept dropped : List Token} (h : Parted all kept dropped)
    (hb : ∀ t ∈ all, t.kind = .blank → ',' ∉ t.text.toList) (hd : ∀ t ∈ dropped, ',' ∉ t.text.toList) :
    (charsOf kept).count ',' = (charsOf all).count ',' := by
  induction h with
  | nil => rfl
  | @blank t all kept dropped ht more ih =>
    obtain ⟨hn, ha⟩ := forall_mem_cons.1 hb
    rw [charsOf_cons, count_append, count_eq_zero.2 (hn ht), zero_add, ih ha hd]
  | keep t more ih =>
    rw [charsOf_cons, charsOf_cons, count_append, count_append, ih (forall_mem_cons.1 hb).2 hd]
  | drop t more ih =>
    obtain ⟨hn, hd⟩ := forall_mem_cons.1 hd
    rw [charsOf_cons, count_append, count_eq_zero.2 hn, zero_add, ih (forall_mem_cons.1 hb).2 hd]

lemma count_comma_print (h : InPlace ns) (hc : Uncommented ns) :
    (Module.print ⟨(splitStatements false ns).map Piece.item⟩).toList.count ',' = (charsOf (tokensOf ns)).count ',' := by
  have hp := parted_stretches h
  have hg := (h.fair hc).isGap_of_blank
  have hst : ∀ u ∈ stretches ns, ink u.chars = ink (charsOf u.tokens) := by
    intro u hu
    rw [((lined_stretches h).sound u hu).ink_chars, Stretch.reading, ink_essences fun t ht hb => ?_]
    exact hg t (hp.kept_sublist.subset (mem_flatMap.2 ⟨u, hu, ht⟩)) hb
  have hin : ink ((stretches ns).flatMap Stretch.chars) = ink (charsOf ((stretches ns).flatMap Stretch.tokens)) := by
    generalize stretches ns = us at hst
    induction us with
    | nil => rfl
    | cons u us ih =>
      obtain ⟨hu, hus⟩ := forall_mem_cons.1 hst
      rw [flatMap_cons, flatMap_cons, charsOf_append, ink_append, ink_append, hu, ih hus]
  have hb : ∀ t ∈ tokensOf ns, t.kind = .blank → ',' ∉ t.text.toList := fun t ht hk hm =>
    absurd (hg t ht hk ',' hm) (by decide)
  have hd : ∀ t ∈ droppedTokens ns, ',' ∉ t.text.toList := by
    intro t ht
    have hm := hp.dropped_sublist.subset ht
    cases hco : t.isTrivia with
    | false =>
      have hs := isPunct_of_mem_loneSemicolons t ((mem_droppedTokens hco).1 ht)
      rw [isPunct_iff] at hs
      rw [hs.2]
      decide
    | true =>
      have hn := hc t hm
      simp only [Token.isComment, or_eq_false_iff] at hn
      exact hb t hm (by simpa [Token.isTrivia, hn] using hco)
  rw [toList_print, ← count_comma_ink, hin, count_comma_ink, hp.count_comma hb hd]

/-- The nodes of a script that prints safely and whose parts are read alone as in their places, no member carried on by
the next one, and what stands behind a class on one line. -/
structure Reprintable (nodes : List Node) : Prop where
  safe : PrintsSafely nodes
  alone : Alone (stretches nodes)
  apart : membersApart nodes = true
  line : ∀ p ∈ splitStatements false nodes, ∀ c ∈ p.classCut?, '\n' ∉ (trim (textOf c.trailing)).toList

lemma Piece.Relaid.core_eq {p q : Piece} (h : p.Relaid q) (ha : ∀ c ∈ p.classCut?, apart c.members) : q.core = p.core := by
  cases h with
  | statement hp hq hn => simp [Piece.core, hp, hq, hn]
  | @classDecl c c' hp hq hc => simp only [Piece.core, hp, hq, hc.core_eq (ha c hp)]

lemma map_core_of_relaid {ps qs : List Piece} (h : Forall₂ Piece.Relaid ps qs)
    (ha : ∀ p ∈ ps, ∀ c ∈ p.classCut?, apart c.members) : qs.map Piece.core = ps.map Piece.core := by
  induction h with
  | nil => rfl
  | cons hpq _ ih =>
    obtain ⟨hp, hps⟩ := forall_mem_cons.1 ha
    rw [map_cons, map_cons, hpq.core_eq hp, ih hps]

lemma map_blankBefore_of_tidy {ms : List Node} (h : ns.map (Node.map tidy) = ms.map (Node.map tidy)) :
    (splitStatements false ns).map Piece.blankBefore = (splitStatements false ms).map Piece.blankBefore :=
  map_statements_of_tidy (fun _ => rfl) h

lemma settled_iff_of_tidy {ms : List Node} (hn : ∀ n ∈ ns, n.Balanced) (hm : ∀ n ∈ ms, n.Balanced)
    (h : ns.map (Node.map tidy) = ms.map (Node.map tidy)) : Settled .block 0 {} ns ↔ Settled .block 0 {} ms :=
  ⟨fun hs => (Settled.congr gentle_tidy hn hm rfl h.symm hs).1, fun hs => (Settled.congr gentle_tidy hm hn rfl h hs).1⟩

/-- **Printing twice.** A printed script is read, and printed as it is; and it calls for the trailing commas of the
relined script. -/
lemma exists_reprinted (h : Plain ns) (hr : Reprintable ns)
    (hte : x = Module.print ⟨(splitStatements false ns).map Piece.item⟩) :
    ∃ tokens printed, tokenize x = .ok tokens ∧ forest x tokens = .ok printed ∧ Plain printed ∧
      Module.print ⟨(splitStatements false printed).map Piece.item⟩ = x ∧
      (Settled .block 0 {} printed ↔ Settled .block 0 {} (relined ns)) := by
  obtain ⟨tokens, printed, relaid, ht, hp, hc, hf, hti, hpi, hb⟩ := exists_printed h.place h.uncommented hr.safe
  rw [← hte] at ht hp
  have hpl : Plain printed := by
    refine ⟨inPlace_forest ht hp, hc, fun hm => ?_⟩
    rw [charsOf_forest ht hp, hte] at hm
    exact (drawnFrom_print h.place _ hm).elim h.unmarked (by simp [drawn])
  have hco : (splitStatements false printed).map Piece.core = (splitStatements false ns).map Piece.core :=
    (map_core_of_tidy hti).trans (map_core_of_relaid hpi (membersApart_iff.1 hr.apart))
  refine ⟨tokens, printed, ht, hp, hpl, ?_, ?_⟩
  · rw [hte]
    refine h.print_of_cores hpl hco ?_ hr.alone hr.line
    rw [map_tail, map_blankBefore_of_tidy hti, ← map_tail, hb]
  · rw [settled_iff_of_tidy hpl.place.balanced hf.balanced hti]
    exact (alike_relined hpi).settled .block 0 {}

namespace TrailingCommas

variable {ts us : List Token}

lemma count_comma_le (h : TrailingCommas ts us) : (charsOf ts).count ',' ≤ (charsOf us).count ',' := by
  induction h with
  | nil => exact le_rfl
  | keep t _ ih =>
    rw [charsOf_cons, charsOf_cons, count_append, count_append]
    omega
  | comma st _ _ _ _ _ ih =>
    rw [charsOf_cons, charsOf_cons, charsOf_comma, count_append, count_append, count_cons_self]
    omega

lemma eq_of_count_comma (h : TrailingCommas ts us) (hc : (charsOf us).count ',' = (charsOf ts).count ',') : us = ts := by
  induction h with
  | nil => rfl
  | keep t more ih =>
    rw [charsOf_cons, charsOf_cons, count_append, count_append] at hc
    rw [ih (by omega)]
  | @comma st t ts us _ _ _ _ more ih =>
    have hl := more.count_comma_le
    rw [charsOf_cons t ts, charsOf_cons t, charsOf_comma, count_append, count_append, count_cons_self] at hc
    omega

end TrailingCommas

lemma requoted_print (h : InPlace ns) (hs : PrintsSafely ns) (hr : ∀ t ∈ tokensOf ns, t.requoted = t) (hto : tokenize (Module.print ⟨(splitStatements false ns).map Piece.item⟩) = .ok tokens) :
    ∀ t ∈ tokens, t.requoted = t := by
  obtain ⟨fs, hfs, he⟩ := (readsAs_print_iff h).2 hs
  obtain ⟨tokens', hto', rfl⟩ := tokenize_eq_ok_iff.2 hfs
  obtain rfl := ok.inj (hto.symm.trans hto')
  have hc : codeForms tokens = codeForms ((stretches ns).flatMap Stretch.tokens) := by
    rw [codeForms_eq, he, ← codeForms_eq]
  intro t ht
  by_cases hk : t.kind = .string
  · have hm : t.form ∈ codeForms tokens := mem_map_of_mem (mem_filter.2 ⟨ht, by simp [Token.isTrivia, hk]⟩)
    rw [hc] at hm
    obtain ⟨u, hu, hf⟩ := mem_map.1 hm
    obtain ⟨hsa, hte⟩ : u.kind = t.kind ∧ u.text = t.text := by
      simpa [form, Form.mk.injEq, toList_inj] using hf
    have hq := hr u ((parted_stretches h).kept_sublist.subset (mem_filter.1 hu).1)
    rw [Token.requoted_eq_self_iff, hsa, hte] at hq
    exact Token.requoted_eq_self_iff.2 hq
  · exact Token.requoted_of_ne hk

lemma reformat_eq_self_iff (ht : tokenize x = .ok tokens)
    (hn : forest x tokens = .ok nodes) (hu : '\r' ∉ x.toList) (hco : Uncommented nodes)
    (hr : ∀ t ∈ tokens, t.requoted = t) (hpr : Module.print ⟨(splitStatements false nodes).map Piece.item⟩ = x) :
    reformat x = .ok x ↔ Settled .block 0 {} nodes := by
  have hpl : ∀ t ∈ tokens, t.isComment = false := tokensOf_forest hn ▸ hco
  have he := unixEnds_of_notMem hu
  have hf : forest x (tokens.map Token.requoted) = .ok nodes := by rw [map_requoted hr, hn]
  have hno := normalize_of_requoted ht hn he hr
  constructor
  · intro h
    obtain ⟨normal, hno', h⟩ := bind_eq_ok.1 h
    obtain ⟨m, hp, h⟩ := bind_eq_ok.1 h
    obtain rfl := ok.inj (hno.symm.trans hno')
    obtain ⟨nodes', hfo⟩ := exists_inNormalForm ht hf he
    obtain ⟨tokens', ht', hn'⟩ := hfo.read
    obtain rfl : Module.mk ((splitStatements false nodes').map Piece.item) = m :=
      ok.inj ((bind_eq_ok.2 ⟨tokens', ht', bind_eq_ok.2 ⟨nodes', hn', rfl⟩⟩ : parseModule _ = _).symm.trans hp)
    -- All commas of the normal form are printed.
    have hcu := count_comma_print (inPlace_forest ht' hn')
      (uncommented_normalForm ht hf hpl hfo)
    rw [ok.inj h, charsOf_forest ht' hn', toList_textOf_eq_charsOf, ← charsOf_forest ht hn, tokensOf_forest hn] at hcu
    have hc := trailingCommas_normalForm hf
    rw [map_requoted hr] at hc
    have hsa := hc.eq_of_count_comma hcu.symm
    have hb := balanced_forest hn
    have hre := forest_tokensOf x (balanced_addCommas .block 0 {} nodes hb)
    rw [← withTrailingCommas, hsa, hn] at hre
    exact (ok.inj hre).symm
  · intro hs
    have hfo : InNormalForm x nodes := ⟨⟨tokens, ht, hn⟩, he, tokensOf_forest hn ▸ hr, hs⟩
    have hp : parseModule x = .ok ⟨(splitStatements false nodes).map Piece.item⟩ :=
      bind_eq_ok.2 ⟨tokens, ht, bind_eq_ok.2 ⟨nodes, hn, rfl⟩⟩
    exact bind_eq_ok.2 ⟨x, hfo.normalize_eq, bind_eq_ok.2 ⟨_, hp, by rw [hpr]; rfl⟩⟩

/-- **When formatting twice is formatting once.** For a script without carriage returns, byte order marks and comments
that can be printed twice, what it is formatted to is formatted to itself exactly if the relined script calls for no more
trailing commas. -/
theorem reformat_reformat_iff {source text : String} (h : reformat source = .ok text) (hunix : '\r' ∉ source.toList)
    (hmark : '\ufeff' ∉ source.toList) :
    ∃ tokens normal words nodes, tokenize source = .ok tokens ∧ normalize source = .ok normal ∧
      tokenize normal = .ok words ∧ forest normal words = .ok nodes ∧
      ((∀ t ∈ tokens, t.isComment = false) → Reprintable nodes →
        (reformat text = .ok text ↔ Settled .block 0 {} (relined nodes))) := by
  obtain ⟨normal, hnormal, h⟩ := bind_eq_ok.1 h
  obtain ⟨m, hparse, h⟩ := bind_eq_ok.1 h
  obtain ⟨words, hwords, hparse⟩ := bind_eq_ok.1 hparse
  obtain ⟨nodes, hnodes, hparse⟩ := bind_eq_ok.1 hparse
  obtain rfl := ok.inj hparse
  have htext := (ok.inj h).symm
  have hends := unixEnds_of_notMem hunix
  obtain ⟨tokens, ns, htokens, hns, rfl⟩ := (normalize_eq_ok_iff hends).1 hnormal
  refine ⟨tokens, _, words, nodes, htokens, hnormal, hwords, hnodes, fun hcomment hr => ?_⟩
  obtain ⟨nodes', hform⟩ := exists_inNormalForm htokens hns hends
  obtain ⟨words', hwords', hnodes'⟩ := hform.read
  obtain rfl := ok.inj (hwords.symm.trans hwords')
  obtain rfl := ok.inj (hnodes.symm.trans hnodes')
  have hplain : Plain nodes := by
    refine ⟨inPlace_forest hwords hnodes, uncommented_normalForm htokens hns hcomment hform, fun hmem => ?_⟩
    rw [charsOf_forest hwords hnodes] at hmem
    exact (mem_normalForm htokens hns hmem).elim hmark (by decide)
  obtain ⟨again, printed, hagain, hprinted, hplain', hprint, hsettled⟩ := exists_reprinted hplain hr htext
  rw [← hsettled]
  refine reformat_eq_self_iff hagain hprinted (fun hmem => ?_) hplain'.uncommented
    (requoted_print hplain.place hr.safe hform.requoted (htext ▸ hagain)) hprint
  rw [htext] at hmem
  refine (drawnFrom_print hplain.place _ hmem).elim (fun hmem => ?_) (by simp [drawn])
  rw [charsOf_forest hwords hnodes] at hmem
  exact (mem_normalForm htokens hns hmem).elim hunix (by decide)

theorem reformat_reformat_iff_class :
    ∃ text tokens normal words nodes, reformat "class A\x7bx\x7d" = .ok text ∧ '\r' ∉ "class A\x7bx\x7d".toList ∧
      '\ufeff' ∉ "class A\x7bx\x7d".toList ∧ tokenize "class A\x7bx\x7d" = .ok tokens ∧
      normalize "class A\x7bx\x7d" = .ok normal ∧ tokenize normal = .ok words ∧ forest normal words = .ok nodes ∧
      (∀ t ∈ tokens, t.isComment = false) ∧ Reprintable nodes ∧ Settled .block 0 {} (relined nodes) ∧
      reformat text = .ok text := by
  have heval : ∃ tokens normal words nodes printed, tokenize "class A\x7bx\x7d" = .ok tokens ∧
      tokens.all (fun t => !t.isComment) = true ∧ normalize "class A\x7bx\x7d" = .ok normal ∧
      tokenize normal = .ok words ∧ forest normal words = .ok nodes ∧
      tokenize (Module.print ⟨(splitStatements false nodes).map Piece.item⟩) = .ok printed ∧
      essences (printed.map Token.form) = essences (((stretches nodes).flatMap Stretch.tokens).map Token.form) ∧
      (stretches nodes).all (fun u => !misread u.reading) = true ∧ membersApart nodes = true ∧
      (splitStatements false nodes).all (fun p => p.classCut?.all fun c =>
        !(trim (Node.textOf c.trailing)).toList.contains '\n') = true ∧
      (addCommas .block 0 {} (relined nodes)).1 = relined nodes :=
    ⟨_, _, _, _, _, by cbv, by cbv, by cbv, by cbv, by cbv, by cbv, by cbv, by cbv, by cbv, by cbv, by cbv⟩
  obtain ⟨tokens, normal, words, nodes, printed, htokens, hcomment, hnormal, hwords, hnodes, hprinted, hforms, halone,
    hapart, hline, hsettled⟩ := heval
  have hunix : '\r' ∉ "class A\x7bx\x7d".toList := by decide
  have hmark : '\ufeff' ∉ "class A\x7bx\x7d".toList := by decide
  have htext : reformat "class A\x7bx\x7d" = .ok (Module.print ⟨(splitStatements false nodes).map Piece.item⟩) :=
    bind_eq_ok.2 ⟨normal, hnormal, bind_eq_ok.2 ⟨_, bind_eq_ok.2 ⟨words, hwords, bind_eq_ok.2 ⟨nodes, hnodes, rfl⟩⟩, rfl⟩⟩
  obtain ⟨tokens', normal', words', nodes', htokens', hnormal', hwords', hnodes', hiff⟩ :=
    reformat_reformat_iff htext hunix hmark
  obtain rfl := ok.inj (htokens.symm.trans htokens')
  obtain rfl := ok.inj (hnormal.symm.trans hnormal')
  obtain rfl := ok.inj (hwords.symm.trans hwords')
  obtain rfl := ok.inj (hnodes.symm.trans hnodes')
  have hplain : ∀ t ∈ tokens, t.isComment = false := fun t ht => by simpa using List.all_eq_true.1 hcomment t ht
  have hr : Reprintable nodes := by
    refine ⟨(readsAs_print_iff (inPlace_forest hwords hnodes)).1
      ⟨_, tokenize_eq_ok_iff.1 ⟨printed, hprinted, rfl⟩, hforms⟩, fun u hu => ?_, hapart, fun p hp c hc => ?_⟩
    · simpa using List.all_eq_true.1 halone u hu
    · simpa using (Option.all_eq_true _ _).1 (List.all_eq_true.1 hline p hp) c hc
  exact ⟨_, tokens, normal, words, nodes, htext, hunix, hmark, htokens, hnormal, hwords, hnodes, hplain, hr, hsettled,
    (hiff hplain hr).2 hsettled⟩

example : (normalize "A[0]\x7b\nx\n\x7d").toOption = some "A[0]\x7b\nx,\n\x7d" := by
  cbv

end CustomElement.Script
