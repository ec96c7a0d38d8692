import CustomElement.Proofs.Script.ClassBodies
import CustomElement.Proofs.Script.Relaying

/-!
# Tokens that stand for a printed text

`Renders` relates stretches to tokens that can be written down in advance: they have the code of the stretches, and
their characters have the folds of the printed text.
-/

namespace CustomElement.Script

open List Text

variable {x : Beat} {xs : List Beat} {a g : List Char} {ns ms : List Node} {ts : List Token} {gap : String}
  {t : Token} {text : String}

/-- Texts that end with ink and have the same folds. -/
structure Alike (a b : List Char) : Prop where
  left : EndsInk a
  right : EndsInk b
  folds : folds a = folds b

lemma Alike.refl (h : EndsInk a) : Alike a a := ⟨h, h, rfl⟩

lemma Alike.append {b c d : List Char} (ha : Alike a b) (hc : Alike c d) : Alike (a ++ c) (b ++ d) :=
  ⟨hc.left.append a, hc.right.append b, by rw [folds_append ha.left, folds_append ha.right, ha.folds, hc.folds]⟩

lemma Alike.behind {b : List Char} (hg : IsGap g) (ha : InkEdged a) (hb : InkEdged b)
    (h : Script.folds a = Script.folds b) : Alike (g ++ a) (g ++ b) := by
  refine ⟨ha.endsInk.append g, hb.endsInk.append g, ?_⟩
  rw [folds_gap_append hg (startsInk_of_inkEdged ha) ha.ne_nil, folds_gap_append hg (startsInk_of_inkEdged hb) hb.ne_nil, h]

def gapToken (g : List Char) : Option Token := if g = [] then none else some ⟨.blank, String.ofList g, 0⟩

def gapNodes (g : List Char) : List Node := ((gapToken g).map Node.leaf).toList

section Gap

@[simp] lemma gapToken_nil : gapToken [] = none := rfl

@[simp] lemma charsOf_gapToken (g : List Char) : charsOf (gapToken g).toList = g := by
  unfold gapToken
  split
  · rename_i h
    rw [h]
    rfl
  · simp

lemma kind_gapToken (h : t ∈ gapToken g) : t.kind = .blank ∧ t.text.toList = g ∧ g ≠ [] := by
  unfold gapToken at h
  split at h
  · cases h
  · rename_i hn
    cases h
    exact ⟨rfl, toList_ofList, hn⟩

@[simp] lemma inked_gapToken (g : List Char) : inked (gapToken g).toList = [] :=
  inked_of_blank fun _ ht => (kind_gapToken (by simpa using ht)).1

lemma hasNewline_gapToken : (gapToken g).any Token.hasNewline ↔ '\n' ∈ g := by
  unfold gapToken
  split
  · rename_i h
    simp [h]
  · simp [Token.hasNewline]

lemma newlines_gapToken : ((gapToken g).any fun t => 2 ≤ t.newlines) = decide (2 ≤ g.count '\n') := by
  unfold gapToken
  split
  · rename_i h
    simp [h]
  · simp [Token.newlines]

@[simp] lemma tokensOf_gapNodes (g : List Char) : tokensOf (gapNodes g) = (gapToken g).toList := by
  unfold gapNodes
  cases gapToken g <;> simp

lemma isTail_gapNodes (g : List Char) : IsTail (gapNodes g) := by
  unfold gapNodes
  cases h : gapToken g with
  | none => exact isTail_nil
  | some t =>
    have ht := (kind_gapToken h).1
    exact ⟨by simp [Node.isBlank, isLeaf, ht], by simp⟩

end Gap

lemma Proper.of_append {fs gs : List Form} (h : Proper (fs ++ gs)) : Proper fs ∧ Proper gs := by
  refine ⟨⟨fun f hf => h.blank f (mem_append_left gs hf), fun f hf => h.ink f (mem_append_left gs hf),
    h.apart.left_of_append⟩, ⟨fun f hf => h.blank f (mem_append_right fs hf),
      fun f hf => h.ink f (mem_append_right fs hf), h.apart.right_of_append⟩⟩

lemma Proper.append {fs gs : List Form} (hf : Proper fs) (hg : Proper gs)
    (h : ∀ f ∈ fs.getLast?, ∀ g ∈ gs.head?, f.kind = .blank → g.kind ≠ .blank) : Proper (fs ++ gs) := by
  refine ⟨fun f hm => ?_, fun f hm => ?_, isChain_append.2 ⟨hf.apart, hg.apart, h⟩⟩
  · exact (mem_append.1 hm).elim (hf.blank f) (hg.blank f)
  · exact (mem_append.1 hm).elim (hf.ink f) (hg.ink f)

structure Fair (ns : List Node) : Prop where
  balanced : ∀ n ∈ ns, n.Balanced
  proper : Proper ((tokensOf ns).map form)
  edged : Edged (tokensOf ns)
  uncommented : Uncommented ns

lemma Reads.edged {fr sl : Bool} {cs : List Char} {tokens : List Token}
    (h : Reads fr sl cs (tokens.map form)) (hc : ∀ t ∈ tokens, t.isComment = false) : Edged tokens := by
  intro t ht hb
  obtain ⟨_, _, _, _, hle⟩ := h.exists_lexes (mem_map_of_mem ht)
  refine hle.inkEdged hb fun hl => ?_
  have hn := hc t ht
  have hk : t.kind = .lineComment := hl
  simp [Token.isComment, hk] at hn

lemma InPlace.fair (h : InPlace ns) (hc : Uncommented ns) : Fair ns := by
  obtain ⟨hb, fr, sl, hr⟩ := h
  exact ⟨hb, hr.proper, hr.edged hc, hc⟩

lemma Fair.of_append (h : Fair (ns ++ ms)) : Fair ns ∧ Fair ms := by
  obtain ⟨hb, hp, he, hc⟩ := h
  rw [tokensOf_append, map_append] at hp
  rw [tokensOf_append] at he
  obtain ⟨hns, hm⟩ := Uncommented.append.1 hc
  exact ⟨⟨fun n hn => hb n (mem_append_left ms hn), hp.of_append.1, fun t ht => he t (mem_append_left _ ht), hns⟩,
    ⟨fun n hn => hb n (mem_append_right ns hn), hp.of_append.2, fun t ht => he t (mem_append_right _ ht), hm⟩⟩

/-- A node that carries code, as it is read without comments. -/
structure Node.Neat (n : Node) : Prop where
  fair : Fair [n]
  code : n.isTrivia = false

/-- A node that carries code behind a gap, as they are read without comments. -/
structure Beat.Neat (x : Beat) : Prop where
  gap : ∀ t ∈ x.gap, t.kind = .blank ∧ t.text.toList ≠ [] ∧ IsGap t.text.toList
  node : x.node.Neat

lemma Beat.Neat.valid (h : x.Neat) : x.Valid := ⟨fun t ht => (h.gap t ht).1, h.node.code⟩

lemma Node.Neat.behind {n : Node} (h : n.Neat) (hg : IsGap g) : Beat.Neat ⟨gapToken g, n⟩ := by
  refine ⟨fun t ht => ?_, h⟩
  obtain ⟨hk, hte, hn⟩ := kind_gapToken ht
  rw [hte]
  exact ⟨hk, hn, hg⟩

section Neat

lemma tokensOf_nodes (x : Beat) : tokensOf x.nodes = x.gap.toList ++ x.node.tokens := by
  unfold Beat.nodes
  cases x.gap <;> simp

lemma Fair.neat {tail : List Node} (h : Fair (nodesOf xs ++ tail)) (hxs : ∀ x ∈ xs, x.Valid) : ∀ x ∈ xs, x.Neat := by
  induction xs with
  | nil => simp
  | cons x xs ih =>
    obtain ⟨hx, hxs⟩ := forall_mem_cons.1 hxs
    rw [nodesOf_cons, append_assoc] at h
    obtain ⟨hf, hr⟩ := h.of_append
    refine forall_mem_cons.2 ⟨⟨fun t ht => ⟨hx.gap t ht, ?_⟩, hf.of_append.2, hx.node⟩, ih hr hxs⟩
    refine hf.proper.blank t.form (mem_map_of_mem ?_) (hx.gap t ht)
    rw [tokensOf_nodes, Option.mem_def.1 ht]
    exact mem_append_left _ (by simp)

lemma Node.head?_tokens (n : Node) : n.tokens.head? = some n.first := by
  cases n <;> simp [Node.first]

lemma Node.getLast?_tokens (n : Node) : n.tokens.getLast? = some n.last := by
  cases n with
  | leaf t => simp [Node.last]
  | group o ms c =>
    rw [tokens_group, ← cons_append, getLast?_concat]
    rfl

lemma Node.Balanced.kind_last {n : Node} (h : n.Balanced) (hn : n.isBlank = false) : n.last.kind ≠ .blank := by
  cases h with
  | leaf _ _ => simpa [Node.isBlank, isLeaf, Node.last] using hn
  | group _ hc _ =>
    intro hk
    rw [isPunct_iff] at hc
    cases hk.symm.trans hc.1

namespace Node.Neat

variable {n : Node} (h : n.Neat)

include h

lemma balanced : n.Balanced := h.fair.balanced n mem_cons_self

lemma not_isBlank : n.isBlank = false := by
  cases hb : n.isBlank with
  | false => rfl
  | true => exact absurd h.code (by simp [isTrivia_of_isBlank hb])

lemma kind_first : n.first.kind ≠ .blank := InPlace.kind_first h.balanced h.not_isBlank

lemma kind_last : n.last.kind ≠ .blank := h.balanced.kind_last h.not_isBlank

lemma proper : Proper (n.tokens.map form) := by simpa using h.fair.proper

lemma edged : Edged n.tokens := by simpa using h.fair.edged

end Node.Neat

lemma Fair.append (h : Fair ns) (h' : Fair ms)
    (hj : ∀ t ∈ (tokensOf ns).getLast?, ∀ u ∈ (tokensOf ms).head?, t.kind = .blank → u.kind ≠ .blank) :
    Fair (ns ++ ms) := by
  refine ⟨forall_mem_append.2 ⟨h.balanced, h'.balanced⟩, ?_, ?_, Uncommented.append.2 ⟨h.uncommented, h'.uncommented⟩⟩
  · rw [tokensOf_append, map_append]
    refine h.proper.append h'.proper fun f hf g hg => ?_
    rw [getLast?_map] at hf
    rw [head?_map] at hg
    obtain ⟨t, ht, rfl⟩ := map_eq_some_iff.1 hf
    obtain ⟨u, hu, rfl⟩ := map_eq_some_iff.1 hg
    exact hj t ht u hu
  · rw [tokensOf_append]
    exact forall_mem_append.2 ⟨h.edged, h'.edged⟩

lemma fair_gap {gap : Option Token} (h : ∀ t ∈ gap, t.kind = .blank ∧ t.text.toList ≠ [] ∧ IsGap t.text.toList) :
    Fair (gap.map Node.leaf).toList := by
  cases gap with
  | none => exact ⟨by simp, ⟨by simp, by simp, .nil⟩, by simp [Edged], by simp [Uncommented]⟩
  | some t =>
    obtain ⟨hk, ht⟩ := h t rfl
    have hl : (Node.leaf t).Balanced := .leaf (by simp [Token.isOpener, hk]) (by simp [Token.isCloser, hk])
    refine ⟨by simpa using hl, ⟨?_, ?_, .singleton _⟩, ?_, ?_⟩
    · simpa [form] using fun _ => ht
    · simp [form, hk]
    · simp [Edged, hk]
    · simp [Uncommented, Token.isComment, hk]

lemma fair_nodesOf (hxs : ∀ x ∈ xs, x.Neat) (hg : IsGap g) : Fair (nodesOf xs ++ gapNodes g) := by
  induction xs with
  | nil =>
    refine fair_gap fun t ht => ?_
    obtain ⟨hk, hte, hn⟩ := kind_gapToken ht
    rw [hte]
    exact ⟨hk, hn, hg⟩
  | cons x xs ih =>
    obtain ⟨hx, hxs⟩ := forall_mem_cons.1 hxs
    rw [nodesOf_cons, append_assoc, Beat.nodes, append_assoc]
    have hb : Fair ([x.node] ++ (nodesOf xs ++ gapNodes g)) := by
      refine hx.node.fair.append (ih hxs) fun t ht u _ hk => ?_
      rw [tokensOf_cons, tokensOf_nil, append_nil, Node.getLast?_tokens] at ht
      cases ht
      exact absurd hk hx.node.kind_last
    refine (fair_gap hx.gap).append hb fun t _ u hu _ => ?_
    rw [singleton_append, tokensOf_cons, head?_append, Node.head?_tokens] at hu
    cases hu
    exact hx.node.kind_first

lemma fair_beats (hx : ∀ x ∈ xs, x.Neat) : Fair (nodesOf xs) := by
  have h := fair_nodesOf hx (g := []) (by simp [IsGap])
  rwa [show gapNodes [] = [] from rfl, append_nil] at h

lemma Fair.group {o c : Token} (h : Fair ms) (ho : o.isOpener) (hc : c.isPunct (closerOf o.text)) (he : Edged [o, c]) :
    (Node.group o ms c).Neat := by
  have hok : o.kind = .punct := by
    simp only [Token.isOpener, and_eq_true, beq_iff_eq] at ho
    exact ho.1
  have hck : c.kind = .punct := (Token.isPunct_iff.1 hc).1
  have hp : ∀ {t : Token}, t ∈ [o, c] → t.kind = .punct → Proper [t.form] := by
    intro t ht hk
    have hin := he t ht (by simp [hk])
    refine ⟨by simp [form, hk], fun f hf _ => ?_, .singleton _⟩
    obtain rfl := mem_singleton.1 hf
    exact ⟨hin.ne_nil, startsInk_of_inkEdged hin⟩
  have hto : ∀ {t : Token}, t ∈ tokensOf [Node.group o ms c] → t = o ∨ t ∈ tokensOf ms ∨ t = c := by
    intro t ht
    simpa using ht
  refine ⟨⟨?_, ?_, fun t ht hk => ?_, fun t ht => ?_⟩, rfl⟩
  · intro n hn
    obtain rfl := mem_singleton.1 hn
    exact .group ho hc h.balanced
  · have hm := h.proper.append (hp (by simp) hck) fun f _ f' hf' _ => by
      cases hf'
      simp [form, hck]
    have ha := (hp (by simp) hok).append hm fun f hf f' _ hk => by
      cases hf
      simp [form, hok] at hk
    simpa using ha
  · rcases hto ht with rfl | ht | rfl
    · exact he t (by simp) hk
    · exact h.edged t ht hk
    · exact he t (by simp) hk
  · rcases hto ht with rfl | ht | rfl
    · simp [Token.isComment, hok]
    · exact h.uncommented t ht
    · simp [Token.isComment, hck]

lemma Node.Neat.inside {o c : Token} {inside : List Node} (h : (Node.group o inside c).Neat) :
    Fair inside ∧ o.isOpener ∧ c.isPunct (closerOf o.text) ∧ Edged [o, c] := by
  have hp := h.proper
  have he := h.edged
  have hco := h.fair.uncommented
  rw [tokens_group] at hp he
  have hs : (o :: (tokensOf inside ++ [c])).map form = [o.form] ++ ((tokensOf inside).map form ++ [c.form]) := by simp
  rw [hs] at hp
  cases h.balanced with
  | group ho hc hin =>
    exact ⟨⟨hin, hp.of_append.2.of_append.1, fun t ht => he t (by simp [ht]),
      fun t ht => hco t (by simp [ht])⟩, ho, hc, fun t ht => he t (by grind)⟩

lemma Fair.apart (h : Fair ns) : ns.IsChain fun n m => n.isBlank → m.isBlank = false := by
  induction ns with
  | nil => exact .nil
  | cons n ns ih =>
    have hr : Fair ([n] ++ ns) := h
    refine isChain_cons.2 ⟨fun m hm hn => ?_, ih hr.of_append.2⟩
    obtain ⟨ns, rfl⟩ := head?_eq_some_iff.1 hm
    cases hb : m.isBlank with
    | false => rfl
    | true =>
      obtain ⟨t, ht, htk⟩ := tokens_of_isBlank hn
      obtain ⟨u, hu, huk⟩ := tokens_of_isBlank hb
      have hp := h.proper
      rw [tokensOf_cons, tokensOf_cons, ht, hu] at hp
      exact absurd huk ((isChain_cons_cons.1 hp.apart).1 htk)

lemma kind_of_isBlank {b : List Node} (h : ∀ n ∈ b, n.isBlank) : ∀ t ∈ tokensOf b, t.kind = .blank := by
  induction b with
  | nil => simp
  | cons n b ih =>
    obtain ⟨hn, hb⟩ := forall_mem_cons.1 h
    obtain ⟨t, ht, hk⟩ := tokens_of_isBlank hn
    rw [tokensOf_cons, ht]
    exact forall_mem_cons.2 ⟨hk, ih hb⟩

lemma IsTail.kind {tail : List Node} (h : IsTail tail) : ∀ t ∈ tokensOf tail, t.kind = .blank :=
  kind_of_isBlank h.blank

lemma Fair.exists_beats (h : Fair ns) :
    ∃ xs tail, ns = nodesOf xs ++ tail ∧ (∀ x ∈ xs, x.Neat) ∧ IsTail tail ∧ IsGap (charsOf (tokensOf tail)) := by
  obtain ⟨xs, tail, rfl, hx, hta⟩ := Script.exists_beats h.apart h.uncommented
  refine ⟨xs, tail, rfl, h.neat hx, hta, fun c hc => ?_⟩
  obtain ⟨t, ht, hc⟩ := mem_flatMap.1 hc
  exact (h.of_append.2.proper.blank t.form (mem_map_of_mem ht) (hta.kind t ht)).2 c hc

lemma endsInk_charsOf (he : Edged ts) (hl : ts.getLast? = some t) (hk : t.kind ≠ .blank) : EndsInk (charsOf ts) := by
  obtain ⟨fr, rfl⟩ := getLast?_eq_some_iff.1 hl
  rw [charsOf_append]
  exact (by simpa using (he t (by simp) hk).endsInk : EndsInk (charsOf [t])).append _

lemma getLast?_nodesOf (h : xs.getLast? = some x) : (tokensOf (nodesOf xs)).getLast? = some x.node.last := by
  obtain ⟨fr, rfl⟩ := getLast?_eq_some_iff.1 h
  rw [nodesOf_append, tokensOf_append, getLast?_append, nodesOf_cons, nodesOf_nil, append_nil,
    tokensOf_nodes, getLast?_append, Node.getLast?_tokens]
  rfl

lemma endsInk_nodesOf (hx : ∀ x ∈ xs, x.Neat) (hn : xs ≠ []) : EndsInk (charsOf (tokensOf (nodesOf xs))) := by
  have hl := getLast?_eq_some_getLast hn
  exact endsInk_charsOf (fair_beats hx).edged (getLast?_nodesOf hl) (hx _ (getLast_mem hn)).node.kind_last

lemma inkEdged_nodesOf (hxs : ∀ x ∈ xs, x.Neat) (hn : xs ≠ []) (hf : xs.head?.all (fun x => x.gap.isNone)) :
    InkEdged (charsOf (tokensOf (nodesOf xs))) := by
  refine ⟨?_, endsInk_nodesOf hxs hn⟩
  obtain ⟨x, xs, rfl⟩ := exists_cons_of_ne_nil hn
  have hx := (forall_mem_cons.1 hxs).1
  have hg : x.gap = none := by simpa using hf
  obtain ⟨r, hr⟩ := head?_eq_some_iff.1 x.node.head?_tokens
  obtain ⟨⟨c, a, ha, hc⟩, -⟩ := hx.node.edged x.node.first (by rw [hr]; simp) hx.node.kind_first
  refine ⟨c, a ++ charsOf (r ++ tokensOf (nodesOf xs)), ?_, hc⟩
  rw [nodesOf_cons, tokensOf_append, tokensOf_nodes, hg, hr]
  simp [ha]

end Neat

/-- The tokens have the code of the stretches and the folds of the printed text. -/
structure Renders (us : List Stretch) (ts : List Token) : Prop where
  chars : Alike (us.flatMap Stretch.chars) (charsOf ts)
  code : inked (us.flatMap Stretch.tokens) = inked ts

lemma Renders.append {us vs : List Stretch} {rs : List Token} (h : Renders us ts) (h' : Renders vs rs) :
    Renders (us ++ vs) (ts ++ rs) := by
  refine ⟨?_, ?_⟩
  · rw [flatMap_append, charsOf_append]
    exact h.chars.append h'.chars
  · rw [flatMap_append, inked_append, inked_append, h.code, h'.code]

lemma exists_rendered (ms : List Node) (ht : text.toList = charsOf ts)
    (he : InkEdged (charsOf ts)) (hc : inked (tokensOf ms) = inked ts) (hga : IsGap gap.toList) (l : Nat) :
    ∃ lead, IsGap lead ∧ '\n' ∉ lead ∧ Renders [laid gap text l ms] ((gapToken (gap.toList ++ lead)).toList ++ ts) := by
  obtain ⟨lead, body, g, hla, hl, hli, hb, -, -, hg, hf⟩ :=
    exists_laid (g := []) (by rw [append_nil]; exact ht) he (by simp [IsGap]) l
  obtain rfl := hg rfl
  refine ⟨lead, hl, hli, ?_, ?_⟩
  · rw [flatMap_singleton, chars_laid, hla, append_nil, ← append_assoc, charsOf_append, charsOf_gapToken]
    exact .behind (hga.append hl) hb he hf
  · rw [flatMap_singleton, inked_append, inked_gapToken, nil_append]
    exact hc

lemma charsOf_of_isPunct (h : t.isPunct text) : charsOf [t] = text.toList := by
  rw [isPunct_iff] at h
  simp [h.2]

lemma inkEdged_singleton {c : Char} (h : isGap c = false) : InkEdged [c] := ⟨⟨c, [], rfl, h⟩, [], c, rfl, h⟩

lemma exists_rendered_opening {us : List Token} (brace : Token)
    (ht : text.toList = charsOf ts ++ g) (hg : IsGap g) (he : InkEdged (charsOf ts))
    (hco : inked us = inked ts) (hga : IsGap gap.toList) (hbr : brace.isPunct openBrace)
    (l : Nat) (seams : List (List Token)) :
    ∃ lead g', IsGap lead ∧ '\n' ∉ lead ∧ IsGap g' ∧ ('\n' ∈ g' → '\n' ∈ g) ∧ Renders [opening gap text l us brace seams]
        ((gapToken (gap.toList ++ lead)).toList ++ (ts ++ ((gapToken g').toList ++ [brace]))) := by
  obtain ⟨lead, body, g', hla, hl, hli, hbo, hg', hn, -, hf⟩ := exists_laid ht he hg l
  have hs : IsGap [' '] := isGap_cons.2 ⟨by decide, by simp [IsGap]⟩
  have ho : charsOf [brace] = ['\x7b'] := charsOf_of_isPunct hbr
  refine ⟨lead, g' ++ [' '], hl, hli, hg'.append hs, fun hm => hn (by simpa using hm), ?_, ?_⟩
  · have hc : (opening gap text l us brace seams).chars =
        ((gap.toList ++ lead) ++ body) ++ ((g' ++ [' ']) ++ ['\x7b']) := by
      have hb : " \x7b".toList = [' ', '\x7b'] := rfl
      simp [opening, Stretch.chars, hla, hb]
    rw [flatMap_singleton, hc, charsOf_append, charsOf_append, charsOf_append, charsOf_gapToken,
      charsOf_gapToken, ho, ← append_assoc _ (charsOf ts)]
    exact (Alike.behind (hga.append hl) hbo he hf).append
      (.refl ((inkEdged_singleton (c := '\x7b') (by decide)).endsInk.append _))
  · rw [flatMap_singleton, inked_append, inked_gapToken, inked_append, inked_append, inked_gapToken]
    simp [opening, hco]

lemma Renders.closing {tail : String} {brace : Token} {us : List Token}
    (hb : brace.isPunct closeBrace) (ht : tail.toList = charsOf ts) (hco : inked us = inked ts)
    (he : ts = [] ∨ EndsInk (charsOf ts)) :
    Renders [Script.closing gap tail (brace :: us)] ((gapToken gap.toList).toList ++ brace :: ts) := by
  have hc : charsOf [brace] = closeBrace.toList := charsOf_of_isPunct hb
  have hch : charsOf ((gapToken gap.toList).toList ++ brace :: ts) = (Script.closing gap tail (brace :: us)).chars := by
    rw [← singleton_append, charsOf_append, charsOf_append, charsOf_gapToken, hc, ← ht]
    simp [Script.closing, Stretch.chars]
  refine ⟨?_, ?_⟩
  · rw [flatMap_singleton, hch]
    refine .refl ?_
    rw [Script.closing, Stretch.chars, toList_append, ht]
    refine EndsInk.append ?_ _
    rcases he with rfl | he
    · exact (inkEdged_singleton (c := '\x7d') (by decide)).endsInk
    · exact he.append _
  · rw [flatMap_singleton, inked_append, inked_gapToken, nil_append, inked_cons]
    change inked (brace :: us) = _
    rw [inked_cons, hco]

def regap (gap : Option Token) : List Beat → List Beat
  | [] => []
  | x :: xs => ⟨gap, x.node⟩ :: xs

lemma regap_eq_nil {gap : Option Token} : regap gap xs = [] ↔ xs = [] := by
  cases xs <;> simp [regap]

lemma neat_regap (hxs : ∀ x ∈ xs, x.Neat) (hg : IsGap g) : ∀ x ∈ regap (gapToken g) xs, x.Neat := by
  cases xs with
  | nil => simp [regap]
  | cons x xs =>
    obtain ⟨hx, hxs⟩ := forall_mem_cons.1 hxs
    exact forall_mem_cons.2 ⟨hx.node.behind hg, hxs⟩

lemma inked_nodes (hx : x.Valid) : inked (tokensOf x.nodes) = inked x.node.tokens := by
  rw [tokensOf_nodes, inked_append, inked_of_blank fun t ht => hx.gap t (by simpa using ht), nil_append]

lemma inked_regap (hxs : ∀ x ∈ xs, x.Valid) {gap : Option Token} (hg : ∀ t ∈ gap, t.kind = .blank) :
    inked (tokensOf (nodesOf (regap gap xs))) = inked (tokensOf (nodesOf xs)) := by
  cases xs with
  | nil => rfl
  | cons x xs =>
    obtain ⟨hx, -⟩ := forall_mem_cons.1 hxs
    have hx' : Beat.Valid ⟨gap, x.node⟩ := ⟨hg, hx.node⟩
    rw [regap, nodesOf_cons, nodesOf_cons, tokensOf_append, tokensOf_append, inked_append, inked_append,
      inked_nodes hx, inked_nodes hx']

section Trim

variable {tail : List Node} {text : String}

structure Trimming (xs : List Beat) (tail : List Node) (cs g g' : List Char) : Prop where
  chars : cs = charsOf (tokensOf (nodesOf (regap (gapToken g) xs))) ++ g'
  front : IsGap g
  back : IsGap g'
  frontBreak : '\n' ∈ g → xs.head?.any Beat.breaks = true
  backBreak : '\n' ∈ g' → '\n' ∈ charsOf (tokensOf tail)
  backNil : tail = [] → g' = []

lemma exists_trimming (hxs : ∀ x ∈ xs, x.Neat) (hta : IsGap (charsOf (tokensOf tail)))
    (ht : text.toList = charsOf (tokensOf (nodesOf xs ++ tail))) :
    ∃ g g', Trimming xs tail (trim text).toList g g' ∧ (xs.head?.all (fun x => x.gap.isNone) → g = []) := by
  cases xs with
  | nil =>
    rw [nodesOf_nil, nil_append] at ht
    have hsu : ∀ c ∈ (trim text).toList, c ∈ text.toList := by
      intro c hc
      rw [trim, toList_ofList] at hc
      exact mem_of_mem_trimStartList (mem_of_mem_trimEndList hc)
    refine ⟨[], (trim text).toList, ⟨by simp [regap], by simp [IsGap], ?_, by simp, ?_, ?_⟩, fun _ => rfl⟩
    · exact fun c hc => hta c (ht ▸ hsu c hc)
    · exact fun hm => ht ▸ hsu _ hm
    · rintro rfl
      have he : text = "" := toList_inj.1 (by rw [ht]; simp)
      rw [he]
      rfl
  | cons x xs =>
    obtain ⟨hx, hr⟩ := forall_mem_cons.1 hxs
    have hco : InkEdged (charsOf (tokensOf (nodesOf (x.flush :: xs)))) :=
      inkEdged_nodesOf (forall_mem_cons.2 ⟨⟨by simp [Beat.flush], hx.node⟩, hr⟩) (cons_ne_nil _ _)
        (by simp [Beat.flush])
    have hs : text.toList = charsOf x.gap.toList ++
        (charsOf (tokensOf (nodesOf (x.flush :: xs))) ++ charsOf (tokensOf tail)) := by
      rw [ht, tokensOf_append, nodesOf_cons, tokensOf_append, tokensOf_nodes, nodesOf_cons, tokensOf_append, tokensOf_nodes]
      simp [Beat.flush]
    have hg : IsGap (charsOf x.gap.toList) := by
      cases h : x.gap with
      | none => simp [IsGap]
      | some t => simpa using (hx.gap t h).2.2
    refine ⟨trimStartList (charsOf x.gap.toList), trimEndList (charsOf (tokensOf tail)), ⟨?_, ?_, ?_, ?_, ?_, ?_⟩, ?_⟩
    · rw [toList_trim_of_inkEdged hs hco, regap, nodesOf_cons, nodesOf_cons, tokensOf_append, tokensOf_nodes,
        tokensOf_append, tokensOf_nodes]
      simp [Beat.flush]
    · exact fun c hc => hg c (mem_of_mem_trimStartList hc)
    · exact fun c hc => hta c (mem_of_mem_trimEndList hc)
    · intro hm
      have hm := mem_of_mem_trimStartList hm
      cases h : x.gap with
      | none => simp [h] at hm
      | some t => simpa [Beat.breaks, h, Token.hasNewline] using hm
    · exact mem_of_mem_trimEndList
    · rintro rfl
      rfl
    · intro hn
      have hn : x.gap = none := by simpa using hn
      rw [hn]
      rfl

lemma Trimming.spaced {g' : List Char} (h : Trimming xs tail text.toList g g') (close : Bool) :
    ∃ g g', Trimming xs tail (if text.isEmpty then "" else if close then text else " " ++ text).toList g g' := by
  have hs : isGap ' ' := by decide
  split
  · rename_i he
    rw [String.isEmpty_iff.1 he] at h
    exact ⟨g, g', h⟩
  · rename_i he
    split
    · exact ⟨g, g', h⟩
    · rw [toList_append, h.chars]
      cases xs with
      | nil =>
        refine ⟨[], ' ' :: g', rfl, by simp [IsGap], isGap_cons.2 ⟨hs, h.back⟩, by simp, ?_, fun ht => ?_⟩
        · intro hm
          exact h.backBreak (by simpa using hm)
        · have hn := h.chars
          rw [h.backNil ht] at hn
          exact absurd (String.isEmpty_iff.2 (toList_inj.1 hn)) he
      | cons x xs =>
        refine ⟨' ' :: g, g', ?_, isGap_cons.2 ⟨hs, h.front⟩, h.back, ?_, h.backBreak, h.backNil⟩
        · rw [regap, regap, nodesOf_cons, nodesOf_cons, tokensOf_append, tokensOf_append, tokensOf_nodes, tokensOf_nodes]
          have ho : " ".toList = [' '] := rfl
          simp [ho]
        · intro hm
          exact h.frontBreak (by simpa using hm)

variable (text) in
lemma exists_trimmed_end (hx : ∀ x ∈ xs, x.Neat) (hn : xs ≠ []) (ht : IsGap (charsOf (tokensOf tail)))
    (hte : text.toList = charsOf (tokensOf (nodesOf xs ++ tail))) :
    ∃ g', (trimEnd text).toList = charsOf (tokensOf (nodesOf xs)) ++ g' ∧ IsGap g' ∧
      ('\n' ∈ g' → '\n' ∈ charsOf (tokensOf tail)) := by
  obtain ⟨a, c, he, hc⟩ := endsInk_nodesOf hx hn
  refine ⟨trimEndList (charsOf (tokensOf tail)), ?_, fun c hc => ht c (mem_of_mem_trimEndList hc), mem_of_mem_trimEndList⟩
  rw [trimEnd, toList_ofList, hte, tokensOf_append, charsOf_append, he, append_assoc,
    singleton_append, trimEndList_append_of_not_blank (not_isBlank_of_not_isGap hc), append_assoc]
  rfl

end Trim

def Entry.Below (gap : String) (e : Entry) : Prop :=
  ∃ lead, IsGap lead ∧ '\n' ∉ lead ∧ e.gap = gapToken (gap.toList ++ lead)

lemma Entry.Below.hasNewline {e : Entry} (h : e.Below gap) (hg : '\n' ∈ gap.toList) : e.gap.any Token.hasNewline := by
  obtain ⟨lead, -, -, heq⟩ := h
  rw [heq, hasNewline_gapToken]
  exact mem_append_left lead hg

lemma Entry.Below.blankBefore {blank : Bool} {e : Entry} (h : e.Below (if blank then "\n\n" else "\n")) :
    e.chunk.blankBefore = blank := by
  obtain ⟨lead, -, hl, heq⟩ := h
  have hc : lead.count '\n' = 0 := count_eq_zero.2 hl
  rw [Entry.chunk, heq, newlines_gapToken, count_append, hc]
  dsimp only
  cases blank <;> decide

/-- The entry stands for these stretches, of which the first has this gap. -/
structure Entry.Prints (e : Entry) (gap : String) (us : List Stretch) : Prop where
  below : e.Below gap
  renders : Renders us (tokensOf (nodesOf e.beats))
  neat : ∀ x ∈ e.beats, x.Neat

structure Column (first : String) (us : List Stretch) (blanks : List Bool) (es : List Entry) : Prop where
  renders : es = [] ∧ us = [] ∨ es ≠ [] ∧ Renders us (tokensOf (nodesOf (es.flatMap Entry.beats)))
  neat : ∀ x ∈ es.flatMap Entry.beats, x.Neat
  head : ∀ e ∈ es.head?, e.Below first
  tail : ∀ e ∈ es.tail, e.gap.any Token.hasNewline = true
  blank : es.tail.map (fun e => e.chunk.blankBefore) = blanks.tail

section Column

variable {α : Type*} {blank : α → Bool} {entry : String → α → List Stretch} {Q : α → Entry → Prop}

variable (blank) in
lemma exists_below {as : List α} (he : ∀ gap, IsGap gap.toList → ∀ a ∈ as, ∃ e : Entry, e.Prints gap (entry gap a) ∧ Q a e)
    {us : List Stretch} {ts : List Token} (hu : Renders us ts) :
    ∃ es, Forall₂ Q as es ∧ Renders (us ++ as.flatMap fun a => entry (if blank a then "\n\n" else "\n") a)
        (ts ++ tokensOf (nodesOf (es.flatMap Entry.beats))) ∧
      (∀ x ∈ es.flatMap Entry.beats, x.Neat) ∧ (∀ e ∈ es, e.gap.any Token.hasNewline) ∧
      es.map (fun e => e.chunk.blankBefore) = as.map blank := by
  induction as generalizing us ts with
  | nil => exact ⟨[], .nil, by simpa using hu, by simp, by simp, rfl⟩
  | cons a as ih =>
    obtain ⟨e, hp, hq⟩ := he _ (newlines_spec (blank a)).1 a mem_cons_self
    obtain ⟨es, hes, hr, hn, hg, hbl⟩ := ih (fun gap hg b hb => he gap hg b (mem_cons_of_mem a hb)) (hu.append hp.renders)
    refine ⟨e :: es, .cons hq hes, ?_, ?_, ?_, ?_⟩
    · simpa using hr
    · rw [flatMap_cons, forall_mem_append]
      exact ⟨hp.neat, hn⟩
    · refine forall_mem_cons.2 ⟨hp.below.hasNewline ?_, hg⟩
      split <;> simp
    · rw [map_cons, map_cons, hp.below.blankBefore, hbl]

variable (blank entry Q) in
lemma exists_column (as : List α) (fst : String) (hf : IsGap fst.toList)
    (he : ∀ gap, IsGap gap.toList → ∀ a ∈ as, ∃ e : Entry, e.Prints gap (entry gap a) ∧ Q a e) :
    ∃ es, Forall₂ Q as es ∧ Column fst (stack fst blank entry as) (as.map blank) es := by
  cases as with
  | nil => exact ⟨[], .nil, .inl ⟨rfl, rfl⟩, by simp, by simp, by simp, rfl⟩
  | cons a as =>
    obtain ⟨e, hp, hq⟩ := he fst hf a mem_cons_self
    obtain ⟨es, hes, hr, hn, hg, hbl⟩ := exists_below blank
      (fun gap hg b hb => he gap hg b (mem_cons_of_mem a hb)) hp.renders
    refine ⟨e :: es, .cons hq hes, .inr ⟨cons_ne_nil _ _, ?_⟩, ?_, ?_, hg, hbl⟩
    · simpa [stack] using hr
    · rw [flatMap_cons, forall_mem_append]
      exact ⟨hp.neat, hn⟩
    · simpa using hp.below

lemma Column.exists_block {inner : List Stretch} {blanks : List Bool} {es : List Entry} (h : Column "\n" inner blanks es)
    {fr : Stretch} {ts r tokens : List Token} {o c : Token} {tail : String} (hf : Renders [fr] (ts ++ [o]))
    (hc : ∀ gap : String, Renders [closing gap tail tokens] ((gapToken gap.toList).toList ++ c :: r)) (l : Nat) :
    ∃ g, IsGap g ∧ ('\n' ∈ g ↔ inner.isEmpty = false) ∧ Renders (block fr inner l tail tokens)
      (ts ++ ((Node.group o (nodesOf (es.flatMap Entry.beats) ++ gapNodes g) c).tokens ++ r)) := by
  rcases h.renders with ⟨rfl, rfl⟩ | ⟨-, hin⟩
  · refine ⟨[], by simp [IsGap], by simp, ?_⟩
    simpa [block] using hf.append (hc "")
  · have hn : inner.isEmpty = false := by
      cases inner with
      | nil => exact absurd rfl hin.chars.left.ne_nil
      | cons u us => rfl
    refine ⟨("\n" ++ indentation l).toList, ?_, ?_, ?_⟩
    · rw [toList_append]
      exact (isGap_cons.2 ⟨by decide, by simp [IsGap]⟩ : IsGap "\n".toList).append (isGap_indentation l)
    · rw [toList_append]
      exact iff_of_true (mem_append_left _ (by decide)) hn
    · have ha := hf.append (hin.append (hc ("\n" ++ indentation l)))
      simpa [block, hn] using ha

end Column

end CustomElement.Script
