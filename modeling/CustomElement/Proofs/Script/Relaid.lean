import CustomElement.Proofs.Script.Commas
import CustomElement.Proofs.Script.Rendering

/-!
# The nodes of a printed script

A printed script is the script laid out anew: statements keep their nodes, and between them, at the edges of bodies and
of signatures, the gaps are other ones.
-/

namespace CustomElement.Script

open List Text

variable {xs : List Beat} {g : List Char} {m : MethodBeats} {n : Node} {gap : String} {c : Chunk} {b : Bool}

/-- The same beats, but for the gap before the first one and the gap behind the last one. -/
inductive Recut : List Node → List Node → Prop
  | intro {xs : List Beat} (gap : Option Token) {tail tail' : List Node} (hxs : ∀ x ∈ xs, x.Valid)
      (hgap : ∀ x ∈ regap gap xs, x.Valid) (htail : IsTail tail) (htail' : IsTail tail') :
      Recut (nodesOf xs ++ tail) (nodesOf (regap gap xs) ++ tail')

lemma regap_none (h : xs.head?.all (fun x => x.gap.isNone)) : regap none xs = xs := by
  cases xs with
  | nil => rfl
  | cons x xs =>
    obtain ⟨gap, node⟩ := x
    obtain rfl : gap = none := by simpa using h
    rfl

lemma Recut.behind {tl tl' : List Node} (hx : ∀ x ∈ xs, x.Valid) (ht : IsTail tl) (ht' : IsTail tl')
    (hf : xs.head?.all (fun x => x.gap.isNone)) : Recut (nodesOf xs ++ tl) (nodesOf xs ++ tl') := by
  have h := Recut.intro none hx (by rwa [regap_none hf]) ht ht'
  rwa [regap_none hf] at h

lemma endsLine_gapNodes (hxs : ∀ x ∈ xs, x.Valid) (g : List Char) :
    endsLine (nodesOf xs ++ gapNodes g) = decide ('\n' ∈ g) := by
  have hg : ∀ n ∈ (gapNodes g).reverse, n.isTrivia := fun n hn =>
    isTrivia_of_isBlank ((isTail_gapNodes g).blank n (mem_reverse.1 hn))
  have hc : (nodesOf xs).reverse.takeWhile Node.isTrivia = [] := by
    rcases eq_nil_or_concat' xs with rfl | ⟨fr, x, rfl⟩
    · rfl
    · have hx := (hxs x (by simp)).node
      simp [Beat.nodes, hx]
  rw [endsLine, reverse_append, takeWhile_append_of_pos hg, hc, append_nil, reverse_reverse,
    hasNewline, tokensOf_gapNodes, Bool.eq_iff_iff, decide_eq_true_iff, ← hasNewline_gapToken]
  cases gapToken g <;> simp

/-- The same statements; blank lines are kept but for one before the first. -/
structure SameStatements (ps ps' : List Piece) : Prop where
  nodes : ps'.map Piece.nodes = ps.map Piece.nodes
  blank : ps'.tail.map Piece.blankBefore = ps.tail.map Piece.blankBefore

structure MethodCut.Relaid (c c' : MethodCut) : Prop where
  head : Recut c.head c'.head
  params : Recut c.params.inside c'.params.inside
  between : Recut c.between c'.between
  body : SameStatements (splitStatements false c.body.inside) (splitStatements false c'.body.inside)
  brackets : c'.params.outline = c.params.outline ∧ c'.body.outline = c.body.outline
  lines : endsLine c'.body.inside = !(splitStatements false c.body.inside).isEmpty

inductive MemberCut.Relaid : MemberCut → MemberCut → Prop
  | other (blank blank' : Bool) (nodes : List Node) : Relaid (.other blank nodes) (.other blank' nodes)
  | method (blank blank' : Bool) {c c' : MethodCut} (h : c.Relaid c') : Relaid (.method blank c []) (.method blank' c' [])

structure Chunk.Relaid (c : Chunk) (e : Entry) : Prop where
  valid : ∀ x ∈ c.beats, x.Valid
  shape : Shape c.beats
  eased : Forall₂ Eased c.beats e.body
  cut : c.memberCut.Relaid e.chunk.memberCut

/-- The same members on lines of their own, as the beats of a class body. -/
structure Restacked (cs : List Chunk) (es : List Entry) : Prop where
  relaid : Forall₂ Chunk.Relaid cs es
  stacked : Stacked es
  valid : ∀ x ∈ es.flatMap Entry.beats, x.Valid
  blank : es.tail.map (fun e => e.chunk.blankBefore) = cs.tail.map Chunk.blankBefore

structure ClassCut.Relaid (c c' : ClassCut) : Prop where
  leading : c.leading = []
  leading' : c'.leading = []
  header : ∃ front tail tail', c.header = front ++ tail ∧ c'.header = front ++ tail' ∧ IsTail tail ∧ IsTail tail'
  trailing : Recut c.trailing c'.trailing
  braces : c'.body.outline = c.body.outline
  lines : endsLine c'.body.inside = !c.members.isEmpty
  members : ∃ cs es tail, c.members = cs.map Chunk.memberCut ∧ Restacked cs es ∧ IsTail tail ∧
    c'.body.inside = nodesOf (es.flatMap Entry.beats) ++ tail

inductive Piece.Relaid (p p' : Piece) : Prop
  | statement (h : p.classCut? = none) (h' : p'.classCut? = none) (hnodes : p'.nodes = p.nodes)
  | classDecl {c c' : ClassCut} (h : p.classCut? = some c) (h' : p'.classCut? = some c') (hc : c.Relaid c')

structure Chunk.Neat (c : Chunk) : Prop where
  beats : ∀ x ∈ c.beats, x.Neat
  front : ∃ n more, c.beats = ⟨none, n⟩ :: more

lemma Chunk.Neat.inkEdged (h : c.Neat) : InkEdged (charsOf (tokensOf (nodesOf c.beats))) := by
  obtain ⟨n, more, hb⟩ := h.front
  exact inkEdged_nodesOf h.beats (by simp [hb]) (by simp [hb])

lemma neat_take {x : Beat} (hxs : ∀ y ∈ x :: xs, y.Neat) (b : Bool) {k : Nat} (hk : 0 < k) :
    Chunk.Neat ⟨b, (x.flush :: xs).take k⟩ := by
  obtain ⟨hx, hxs⟩ := forall_mem_cons.1 hxs
  obtain ⟨k, rfl⟩ := Nat.exists_eq_succ_of_ne_zero hk.ne'
  refine ⟨?_, x.node, xs.take k, rfl⟩
  exact forall_mem_cons.2 ⟨⟨by simp [Beat.flush], hx.node⟩, fun y hy => hxs y (mem_of_mem_take hy)⟩

lemma neat_chunks (hx : ∀ x ∈ xs, x.Neat) : ∀ c ∈ chunks b xs, c.Neat := by
  fun_induction chunks b xs with
  | case1 => simp
  | case2 b x xs len ih =>
    refine forall_mem_cons.2 ⟨neat_take hx _ (pieceBeats_pos x xs), ih fun y hy => ?_⟩
    exact hx y (mem_cons_of_mem x (mem_of_mem_drop hy))

lemma neat_memberChunks (hx : ∀ x ∈ xs, x.Neat) : ∀ c ∈ memberChunks b xs, c.Neat := by
  fun_induction memberChunks b xs with
  | case1 => simp
  | case2 b x xs hs ih => exact ih fun y hy => hx y (mem_cons_of_mem x hy)
  | case3 b x xs hs len ih =>
    refine forall_mem_cons.2 ⟨neat_take hx _ (memberLength_pos x xs), ih fun y hy => ?_⟩
    exact hx y (mem_cons_of_mem x (mem_of_mem_drop hy))

lemma tokensOf_entry (e : Entry) : tokensOf (nodesOf e.beats) = e.gap.toList ++ tokensOf (nodesOf e.body) := by
  rw [Entry.beats, Entry.body, nodesOf_cons, nodesOf_cons, tokensOf_append, tokensOf_nodes, tokensOf_append, tokensOf_nodes]
  simp

lemma exists_entry (hx : Chunk.Neat ⟨false, xs⟩) {lead : List Char} (hg : IsGap gap.toList) (hl : IsGap lead)
    (hli : '\n' ∉ lead) (us : List Stretch)
    (h : Renders us ((gapToken (gap.toList ++ lead)).toList ++ tokensOf (nodesOf xs))) :
    ∃ e : Entry, e.body = xs ∧ e.Prints gap us := by
  obtain ⟨hb, n, more, rfl⟩ := hx
  obtain ⟨hn, hm⟩ := forall_mem_cons.1 hb
  refine ⟨⟨gapToken (gap.toList ++ lead), n, more⟩, rfl, ⟨lead, hl, hli, rfl⟩, ?_, ?_⟩
  · rw [tokensOf_entry]
    exact h
  · exact forall_mem_cons.2 ⟨hn.node.behind (hg.append hl), hm⟩

lemma Entry.Prints.valid {e : Entry} {us : List Stretch} (h : e.Prints gap us) : ∀ x ∈ e.body, x.Valid := by
  obtain ⟨hf, hm⟩ := forall_mem_cons.1 h.neat
  exact forall_mem_cons.2 ⟨⟨by simp, hf.node.code⟩, fun x hx => (hm x hx).valid⟩

lemma exists_statement (hc : c.Neat) (hg : IsGap gap.toList) (l : Nat) :
    ∃ e : Entry, e.body = c.beats ∧ e.Prints gap (c.piece.laid l gap) := by
  obtain ⟨lead, hl, hli, hr⟩ := exists_rendered (nodesOf c.beats)
    (toList_textOf_eq_charsOf (nodesOf c.beats)) hc.inkEdged rfl hg l
  exact exists_entry ⟨hc.beats, hc.front⟩ hg hl hli _ hr

lemma Eased.refl (x : Beat) : Eased x x := ⟨rfl, id⟩

lemma eased_refl (xs : List Beat) : Forall₂ Eased xs xs := forall₂_same.2 fun x _ => Eased.refl x

lemma exists_of_forall₂_right {α β : Type*} {R : α → β → Prop} {as : List α} {bs : List β} (h : Forall₂ R as bs)
    {b : β} (hb : b ∈ bs) : ∃ a ∈ as, R a b := by
  induction h with
  | nil => cases hb
  | cons hab _ ih =>
    rcases mem_cons.1 hb with rfl | hb
    · exact ⟨_, mem_cons_self, hab⟩
    · obtain ⟨a, ha, hR⟩ := ih hb
      exact ⟨a, mem_cons_of_mem _ ha, hR⟩

lemma map_eq_of_forall₂ {α β γ : Type*} {f : α → γ} {g : β → γ} {as : List α} {bs : List β}
    (h : Forall₂ (fun a b => g b = f a) as bs) : bs.map g = as.map f := by
  induction h with
  | nil => rfl
  | cons ha _ ih => rw [map_cons, map_cons, ha, ih]

lemma stack_map {α β : Type*} (first : String) (blank : β → Bool) (entry : String → β → List Stretch) (f : α → β)
    (as : List α) : stack first blank entry (as.map f) = stack first (fun a => blank (f a)) (fun gap a => entry gap (f a)) as := by
  cases as with
  | nil => rfl
  | cons a as => rw [map_cons, stack, stack, flatMap_map]

lemma exists_statements {bs : List Beat} (hbs : ∀ x ∈ bs, x.Neat) (level : Nat) :
    ∃ es : List Entry, Column "\n" (stack "\n" Piece.blankBefore (Piece.laid level) ((chunks false bs).map Chunk.piece))
        ((chunks false bs).map Chunk.blankBefore) es ∧
      ∀ {tail tail' : List Node}, IsTail tail → IsTail tail' → SameStatements (splitStatements false (nodesOf bs ++ tail))
        (splitStatements false (nodesOf (es.flatMap Entry.beats) ++ tail')) := by
  obtain ⟨es, hes, hco⟩ := exists_column Chunk.blankBefore
    (fun gap c => c.piece.laid level gap) (fun c e => e.body = c.beats) (chunks false bs) "\n" (newlines_spec false).1
    (fun gap hg c hc => (exists_statement (neat_chunks hbs c hc) hg level).imp fun e he => ⟨he.2, he.1⟩)
  refine ⟨es, by rw [stack_map]; exact hco, fun ht ht' => ?_⟩
  have hea : Forall₂ Chunk.EasedTo (chunks false bs) es := hes.imp fun c e he => by
      rw [Chunk.EasedTo, he]
      exact eased_refl _
  rw [splitStatements_nodesOf (fun x hx => (hbs x hx).valid) ht,
    splitStatements_nodesOf (fun x hx => (hco.neat x hx).valid) ht', chunks_entries hea hco.tail]
  refine ⟨?_, ?_⟩
  · rw [List.map_map, List.map_map, List.map_map]
    exact map_eq_of_forall₂ (hes.imp fun c e he => congrArg nodesOf he)
  · have hb := hco.blank
    rw [← map_tail] at hb
    rw [← map_tail, ← map_tail, List.map_map, List.map_map, ← map_tail, List.map_map]
    exact hb

section Before

variable {x : Beat}

lemma tokensOf_before (x : Beat) : tokensOf x.before = x.gap.toList := by
  unfold Beat.before
  cases x.gap <;> simp

lemma breaks_of_mem (h : '\n' ∈ charsOf (tokensOf x.before)) : x.breaks := by
  rw [tokensOf_before] at h
  cases hg : x.gap with
  | none => simp [hg] at h
  | some t => simpa [Beat.breaks, hg, Token.hasNewline] using h

lemma Beat.Neat.isGap_before (h : x.Neat) : IsGap (charsOf (tokensOf x.before)) := by
  rw [tokensOf_before]
  cases hg : x.gap with
  | none => simp [IsGap]
  | some t => simpa using (h.gap t hg).2.2

lemma Beat.Neat.isTail_before (h : x.Neat) : IsTail x.before := by
  unfold Beat.before
  cases hg : x.gap with
  | none => exact isTail_nil
  | some t => exact ⟨by simp [Node.isBlank, isLeaf, (h.gap t hg).1], by simp⟩

lemma eased_gapToken (hn : n.outline = x.node.outline) (hg : '\n' ∈ g → x.breaks) : Eased x ⟨gapToken g, n⟩ :=
  ⟨hn, fun h => hg (hasNewline_gapToken.1 h)⟩

lemma eased_regap (hg : '\n' ∈ g → xs.head?.any Beat.breaks) : Forall₂ Eased xs (regap (gapToken g) xs) := by
  cases xs with
  | nil => exact .nil
  | cons x xs => exact .cons (eased_gapToken rfl (by simpa using hg)) (eased_refl xs)

end Before

lemma inked_group (o : Token) (ms : List Node) (c : Token) :
    inked (Node.group o ms c).tokens = inked [o] ++ (inked (tokensOf ms) ++ inked [c]) := by
  rw [tokens_group, ← singleton_append, inked_append, inked_append]

lemma exists_group {op : String} (h : n.isGroup op) : ∃ o ms c, n = .group o ms c ∧ o.isPunct op := by
  cases n with
  | leaf t => cases h
  | group o ms c => exact ⟨o, ms, c, rfl, h⟩

lemma exists_parentheses (hn : n.Neat) (hg : n.isGroup "(") :
    ∃ n' : Node, n'.Neat ∧ n'.outline = n.outline ∧ Recut n.inside n'.inside ∧ inked n'.tokens = inked n.tokens ∧
      charsOf n'.tokens = '(' :: ((trim (textOf n.inside)).toList ++ [')']) := by
  obtain ⟨o, ms, c, rfl, ho⟩ := exists_group hg
  obtain ⟨hf, hoe, hc, he⟩ := hn.inside
  obtain ⟨ps, tl, rfl, hp, hta, hga⟩ := hf.exists_beats
  obtain ⟨g, g', htr, -⟩ := exists_trimming hp hga (toList_textOf_eq_charsOf _)
  have hte : o.text = "(" := (Token.isPunct_iff.1 ho).2
  have hne := neat_regap hp htr.front
  refine ⟨.group o (nodesOf (regap (gapToken g) ps) ++ gapNodes g') c,
    (fair_nodesOf hne htr.back).group hoe hc he, rfl, ?_, ?_, ?_⟩
  · exact .intro (gapToken g) (fun x hx => (hp x hx).valid) (fun x hx => (hne x hx).valid) hta (isTail_gapNodes g')
  · rw [inked_group, inked_group, tokensOf_append, inked_append, tokensOf_append, inked_append,
      inked_regap (fun x hx => (hp x hx).valid) (fun t ht => (kind_gapToken ht).1), inked_of_blank hta.kind,
      tokensOf_gapNodes, inked_gapToken]
  · have hcl : charsOf [c] = [')'] := by
      rw [hte] at hc
      exact charsOf_of_isPunct hc
    have hop : charsOf [o] = ['('] := charsOf_of_isPunct ho
    rw [tokens_group, ← singleton_append, charsOf_append, charsOf_append, hop, hcl,
      tokensOf_append, charsOf_append, tokensOf_gapNodes, charsOf_gapToken, ← htr.chars, singleton_append,
      Node.inside]

lemma inked_append_cons (hs : List Beat) {p : Beat} (hp : p.Valid) (r : List Beat) :
    inked (tokensOf (nodesOf (hs ++ p :: r))) =
      inked (tokensOf (nodesOf hs)) ++ (inked p.node.tokens ++ inked (tokensOf (nodesOf r))) := by
  rw [nodesOf_append, tokensOf_append, inked_append, nodesOf_cons, tokensOf_append, inked_append, inked_nodes hp]

lemma MethodBeats.isGroup (hm : m.Marked) (hv : ∀ x ∈ m.beats, x.Valid) :
    m.params.node.isGroup "(" ∧ m.body.node.isGroup openBrace := by
  have hc := methodCut?_beats (c := []) hm (by simpa using hv) isTail_nil
  exact (methodCut?_eq_some hc).2

structure MethodBeats.Signed (m : MethodBeats) (p : Beat) (bs : List Beat) (g : List Char) : Prop where
  text : m.cut.method.signature.toList = charsOf (tokensOf (nodesOf (m.head ++ p :: bs))) ++ g
  neat : ∀ x ∈ p :: bs, x.Neat
  eased : Forall₂ Eased (m.params :: m.between) (p :: bs)
  first : m.params.gap = none → p.gap = none
  params : Recut m.params.node.inside p.node.inside
  between : ∃ gap, bs = regap gap m.between
  code : inked m.cut.signature = inked (tokensOf (nodesOf (m.head ++ p :: bs)))
  gap : IsGap g
  breaks : '\n' ∈ g → m.body.breaks = true

lemma exists_signature (hm : m.Marked) (hne : ∀ x ∈ m.beats, x.Neat)
    (hf : m.head.head?.all (fun x => x.gap.isNone)) : ∃ p bs g, m.Signed p bs g := by
  obtain ⟨hg, -⟩ := m.isGroup hm fun x hx => (hne x hx).valid
  have hbe : ∀ x, x ∈ m.head ∨ x = m.params ∨ x ∈ m.between ∨ x = m.body → x.Neat := by
    intro x hx
    refine hne x ?_
    simpa [MethodBeats.beats] using hx
  have hh : ∀ x ∈ m.head, x.Neat := fun x hx => hbe x (.inl hx)
  have hp : m.params.Neat := hbe _ (.inr (.inl rfl))
  have hb : ∀ x ∈ m.between, x.Neat := fun x hx => hbe x (.inr (.inr (.inl hx)))
  have hbo : m.body.Neat := hbe _ (.inr (.inr (.inr rfl)))
  obtain ⟨g₀, g₁, hheadTrim, hno⟩ := exists_trimming hh hp.isGap_before (toList_textOf_eq_charsOf _)
  obtain rfl := hno hf
  obtain ⟨n, hn, ho, hre, hco, hc⟩ := exists_parentheses hp.node hg
  obtain ⟨g₂, g₃, hbetweenTrim, -⟩ := exists_trimming hb hbo.isGap_before (toList_textOf_eq_charsOf _)
  obtain ⟨g₂, g₃, hs⟩ := hbetweenTrim.spaced
    ((trim (textOf (nodesOf m.between ++ m.body.before))).toList.head? == some ':')
  have hv : Beat.Valid ⟨gapToken g₁, n⟩ := ⟨fun t ht => (kind_gapToken ht).1, hn.code⟩
  refine ⟨⟨gapToken g₁, n⟩, regap (gapToken g₂) m.between, g₃, ⟨?_, ?_, ?_, ?_, hre, ⟨_, rfl⟩, ?_, hs.back, ?_⟩⟩
  · have hr := hheadTrim.chars
    rw [gapToken_nil, regap_none hf] at hr
    have hsi : m.cut.method.signature.toList = (trim (textOf (nodesOf m.head ++ m.params.before))).toList ++
        '(' :: ((trim (textOf m.params.node.inside)).toList ++ ')' ::
          (charsOf (tokensOf (nodesOf (regap (gapToken g₂) m.between))) ++ g₃)) := by
      rw [Method.toList_signature, ← hs.chars]
      rfl
    rw [hsi, hr, nodesOf_append, tokensOf_append, charsOf_append, nodesOf_cons, tokensOf_append,
      charsOf_append, tokensOf_nodes, charsOf_append, charsOf_gapToken, hc]
    simp
  · exact forall_mem_cons.2 ⟨hn.behind hheadTrim.back, neat_regap hb hs.front⟩
  · exact .cons (eased_gapToken ho fun hme => breaks_of_mem (hheadTrim.backBreak hme))
      (eased_regap hs.frontBreak)
  · intro hga
    have hni : m.params.before = [] := by simp [Beat.before, hga]
    rw [hheadTrim.backNil hni]
    rfl
  · rw [inked_append_cons _ hv, inked_regap (fun x hx => (hb x hx).valid) (fun t ht => (kind_gapToken ht).1),
      hco, MethodCut.signature, inked_append, inked_append]
    have hbl : ∀ {x : Beat}, x.Neat → inked x.gap.toList = [] := fun hx =>
      inked_of_blank fun t ht => (hx.gap t (by simpa using ht)).1
    simp only [MethodBeats.cut, tokensOf_append, inked_append, tokensOf_before, hbl hp, hbl hbo, append_nil]
  · exact fun hme => breaks_of_mem (hs.backBreak hme)

lemma MethodBeats.front (h : Chunk.Neat ⟨false, m.beats⟩) :
    m.head.head?.all (fun x => x.gap.isNone) ∧ (m.head = [] → m.params.gap = none) := by
  obtain ⟨n, more, hfr⟩ := h.front
  cases hh : m.head with
  | nil =>
    have hf : m.params :: (m.between ++ [m.body]) = ⟨none, n⟩ :: more := by
      simpa [MethodBeats.beats, hh] using hfr
    refine ⟨rfl, fun _ => ?_⟩
    rw [(cons.inj hf).1]
  | cons x xs =>
    have hf : x :: (xs ++ m.params :: (m.between ++ [m.body])) = ⟨none, n⟩ :: more := by
      simpa [MethodBeats.beats, hh] using hfr
    refine ⟨?_, fun hn => absurd hn (cons_ne_nil _ _)⟩
    rw [(cons.inj hf).1]
    rfl

lemma MethodBeats.Signed.front {p : Beat} {bs : List Beat} (h : m.Signed p bs g)
    (hn : Chunk.Neat ⟨false, m.beats⟩) : Chunk.Neat ⟨false, m.head ++ p :: bs⟩ := by
  obtain ⟨hf, hfi⟩ := MethodBeats.front hn
  refine ⟨forall_mem_append.2 ⟨fun x hx => hn.beats x (mem_append_left _ hx), h.neat⟩, ?_⟩
  cases hh : m.head with
  | nil =>
    obtain ⟨gap, node⟩ := p
    obtain rfl : gap = none := h.first (hfi hh)
    exact ⟨node, bs, rfl⟩
  | cons x xs =>
    obtain ⟨gap, node⟩ := x
    obtain rfl : gap = none := by simpa [hh] using hf
    exact ⟨node, xs ++ p :: bs, rfl⟩

lemma isPunct_closeBrace {o c : Token} (ho : o.isPunct openBrace) (hc : c.isPunct (closerOf o.text)) :
    c.isPunct closeBrace := by
  rw [isPunct_iff] at ho
  rwa [ho.2, closerOf_openBrace] at hc

lemma exists_body_relaid {gap tx : String} {us ts : List Token} {g : List Char} (seams : List (List Token))
    {n : Node} (hn : n.Neat) (hgr : n.isGroup openBrace) (hte : tx.toList = charsOf ts ++ g) (hg : IsGap g)
    (he : InkEdged (charsOf ts)) (hcd : inked us = inked ts) (hga : IsGap gap.toList) :
    ∃ (lead g' : List Char) (n' : Node), IsGap lead ∧ '\n' ∉ lead ∧ IsGap g' ∧ ('\n' ∈ g' → '\n' ∈ g) ∧ n'.Neat ∧ n'.outline = n.outline ∧
      SameStatements (splitStatements false n.inside) (splitStatements false n'.inside) ∧
      endsLine n'.inside = (!(splitStatements false n.inside).isEmpty) ∧
      Renders (block (opening gap tx 1 us n.first seams)
          (stack "\n" Piece.blankBefore (Piece.laid 2) (splitStatements false n.inside)) 1 "" [n.last])
        ((gapToken (gap.toList ++ lead)).toList ++ (ts ++ ((gapToken g').toList ++ n'.tokens))) := by
  obtain ⟨o, ms, c, rfl, ho⟩ := exists_group hgr
  obtain ⟨hf, hoe, hcl, hen⟩ := hn.inside
  obtain ⟨ys, tl, rfl, hy, ht, -⟩ := hf.exists_beats
  obtain ⟨es, hc, hsa⟩ := exists_statements hy 2
  obtain ⟨lead, g', hle, hli, hg', hb, hop⟩ := exists_rendered_opening o hte hg he hcd hga ho 1 seams
  have hco : ∀ gap : String, Renders [closing gap "" [c]] ((gapToken gap.toList).toList ++ [c]) := fun gap =>
    .closing (isPunct_closeBrace ho hcl) rfl rfl (.inl rfl)
  rw [← append_assoc ts, ← append_assoc _ _ [o]] at hop
  obtain ⟨g₃, hg₃, hl, hbl⟩ := hc.exists_block hop hco 1
  have hs := splitStatements_nodesOf (fun x hx => (hy x hx).valid) ht false
  refine ⟨lead, g', .group o (nodesOf (es.flatMap Entry.beats) ++ gapNodes g₃) c, hle, hli, hg', hb,
    (fair_nodesOf hc.neat hg₃).group hoe hcl hen, rfl, hsa ht (isTail_gapNodes g₃), ?_, ?_⟩
  · have hne : ∀ gap, ∀ p ∈ (chunks false ys).map Chunk.piece, Piece.laid 2 gap p ≠ [] := fun _ _ _ => cons_ne_nil _ _
    rw [isEmpty_stack hne] at hl
    simp only [Node.inside, endsLine_gapNodes (fun x hx => (hc.neat x hx).valid), hl, hs, Bool.decide_eq_false]
  · simp only [Node.inside, Node.first, Node.last, hs]
    simpa using hbl

lemma exists_method {m : MethodBeats} (hm : m.Marked) (hne : Chunk.Neat ⟨false, m.beats⟩) {gap : String}
    (hga : IsGap gap.toList) :
    ∃ (m' : MethodBeats) (e : Entry), e.body = m'.beats ∧ e.Prints gap (m.cut.stretches gap) ∧ m'.Marked ∧
      Forall₂ Eased m.beats m'.beats ∧ m.cut.Relaid m'.cut := by
  obtain ⟨hf, -⟩ := MethodBeats.front hne
  obtain ⟨p, bs, g, hs⟩ := exists_signature hm hne.beats hf
  obtain ⟨-, hg⟩ := m.isGroup hm fun x hx => (hne.beats x hx).valid
  have hme : ∀ x, x ∈ m.head ∨ x = m.params ∨ x ∈ m.between ∨ x = m.body → x.Neat := fun x hx =>
    hne.beats x (by simpa [MethodBeats.beats] using hx)
  have hh : ∀ x ∈ m.head, x.Neat := fun x hx => hme x (.inl hx)
  have hbe : ∀ x ∈ m.between, x.Neat := fun x hx => hme x (.inr (.inr (.inl hx)))
  have hbo : m.body.Neat := hme _ (.inr (.inr (.inr rfl)))
  have hsi := hs.front hne
  obtain ⟨lead, g', n, hle, hli, hg', hbr, hn, ho, hsa, hl, hbl⟩ :=
    exists_body_relaid m.cut.seams hbo.node hg hs.text hs.gap hsi.inkEdged hs.code
      hga
  have hb : MethodBeats.beats ⟨m.head, p, bs, ⟨gapToken g', n⟩⟩ = (m.head ++ p :: bs) ++ [⟨gapToken g', n⟩] := by
    simp [MethodBeats.beats]
  have ha : Chunk.Neat ⟨false, MethodBeats.beats ⟨m.head, p, bs, ⟨gapToken g', n⟩⟩⟩ := by
    obtain ⟨fst, more, hf⟩ := hsi.front
    refine ⟨?_, fst, more ++ [⟨gapToken g', n⟩], ?_⟩
    · rw [hb, forall_mem_append]
      exact ⟨hsi.beats, by simpa using hn.behind hg'⟩
    · rw [hb, show m.head ++ p :: bs = _ from hf, cons_append]
  have hea : Forall₂ Eased m.beats (MethodBeats.beats ⟨m.head, p, bs, ⟨gapToken g', n⟩⟩) := by
    rw [hb, MethodBeats.beats, ← cons_append, ← append_assoc]
    refine rel_append (rel_append (eased_refl m.head) hs.eased) (.cons ?_ .nil)
    exact eased_gapToken ho fun h => hs.breaks (hbr h)
  obtain ⟨e, he, hpr⟩ := exists_entry ha hga hle hli (m.cut.stretches gap) (by
    rw [hb, nodesOf_append, tokensOf_append, nodesOf_cons, nodesOf_nil, append_nil, tokensOf_nodes]
    exact hbl)
  refine ⟨_, e, he, hpr, hm.eased hea rfl, hea, ?_⟩
  have hp : p.Neat := hs.neat p mem_cons_self
  refine ⟨?_, hs.params, ?_, hsa, ⟨?_, ho⟩, hl⟩
  · exact .behind (fun x hx => (hh x hx).valid) (hme _ (.inr (.inl rfl))).isTail_before hp.isTail_before hf
  · obtain ⟨gap', rfl⟩ := hs.between
    exact .intro gap' (fun x hx => (hbe x hx).valid)
      (fun x hx => (hs.neat x (mem_cons_of_mem p hx)).valid) hbo.isTail_before (hn.behind hg').isTail_before
  · cases hs.eased with
    | cons hpa _ => exact hpa.outline

lemma Shape.memberCut (h : Shape c.beats) (hv : ∀ x ∈ c.beats, x.Valid)
    (hn : ∀ m : MethodBeats, c.beats = m.beats → ¬ m.Marked) :
    c.memberCut = .other c.blankBefore (nodesOf c.beats) := by
  have hl : memberLength c.beats = c.beats.length := by
    have hme := memberLength_append (d := []) h (by simp) (by simp)
    rwa [append_nil] at hme
  have hc := cutMember_other hv isTail_nil (fun k m hk hm => ?_) c.blankBefore
  · rw [append_nil, hl, take_length] at hc
    exact hc
  · have hs : k + 1 + m + 1 = c.beats.length := by
      rw [memberLength, hk] at hl
      simp only [signatureLength, hm] at hl
      omega
    obtain ⟨method, hb, hma⟩ := exists_methodBeats hk hm hs
    exact hn method hb hma

lemma MethodBeats.Marked.memberCut {m : MethodBeats} (hm : m.Marked) (h : c.beats = m.beats)
    (hv : ∀ x ∈ c.beats, x.Valid) : c.memberCut = .method c.blankBefore m.cut [] := by
  have hc := cutMember_method (c := []) hm (by rwa [append_nil, ← h]) isTail_nil c.blankBefore
  rwa [append_nil, append_nil, ← h] at hc

lemma Shape.memberCut_cases (h : Shape c.beats) (hv : ∀ x ∈ c.beats, x.Valid) :
    (∃ m : MethodBeats, c.beats = m.beats ∧ m.Marked ∧ c.memberCut = .method c.blankBefore m.cut []) ∨
      ((∀ m : MethodBeats, c.beats = m.beats → ¬ m.Marked) ∧ c.memberCut = .other c.blankBefore (nodesOf c.beats)) := by
  by_cases hme : ∃ m : MethodBeats, c.beats = m.beats ∧ m.Marked
  · obtain ⟨m, hb, hm⟩ := hme
    exact .inl ⟨m, hb, hm, hm.memberCut hb hv⟩
  · have hn : ∀ m : MethodBeats, c.beats = m.beats → ¬ m.Marked := fun m hb hm => hme ⟨m, hb, hm⟩
    exact .inr ⟨hn, h.memberCut hv hn⟩

lemma exists_member (hc : c.Neat) (hs : Shape c.beats) {gap : String} (hg : IsGap gap.toList) :
    ∃ e : Entry, e.Prints gap (c.memberCut.stretches gap) ∧ c.Relaid e := by
  have hv : ∀ x ∈ c.beats, x.Valid := fun x hx => (hc.beats x hx).valid
  rcases hs.memberCut_cases hv with ⟨m, hb, hm, hf⟩ | ⟨hn, hf⟩
  · obtain ⟨m', e, he, hp, hm', hea, hr⟩ := exists_method hm (hb ▸ ⟨hc.beats, hc.front⟩) hg
    have hse : e.chunk.memberCut = .method e.chunk.blankBefore m'.cut [] := hm'.memberCut he hp.valid
    refine ⟨e, ?_, hv, hs, ?_, ?_⟩
    · rw [hf]
      exact hp
    · rw [hb, he]
      exact hea
    · rw [hf, hse]
      exact .method _ _ hr
  · obtain ⟨e, he, hp⟩ := exists_statement hc hg 1
    have hse : e.chunk.memberCut = .other e.chunk.blankBefore (nodesOf c.beats) := by
      have hco : e.chunk = ⟨e.chunk.blankBefore, c.beats⟩ := by rw [← he]; rfl
      rw [hco]
      exact Shape.memberCut (c := ⟨e.chunk.blankBefore, c.beats⟩) hs hv hn
    refine ⟨e, ?_, hv, hs, ?_, ?_⟩
    · rw [hf]
      exact hp
    · rw [he]
      exact eased_refl _
    · rw [hf, hse]
      exact .other _ _ _

structure ClassBeats where
  header : List Beat
  body : Beat
  trailing : List Beat

namespace ClassBeats

def beats (k : ClassBeats) : List Beat := k.header ++ k.body :: k.trailing

def cut (k : ClassBeats) : ClassCut := ⟨[], nodesOf k.header ++ k.body.before, k.body.node, nodesOf k.trailing⟩

/-- The beats are read as this class: its keyword stands in the header, and no brace before the body. -/
structure Marked (k : ClassBeats) : Prop where
  lead : ∃ i, leadIndex .outside k.beats = some ("class", i) ∧ i < k.header.length ∧
    ∀ x ∈ k.header.drop (i + 1), x.node.isGroup openBrace = false
  body : k.body.node.isGroup openBrace = true

lemma Marked.relaid {k k' : ClassBeats} (hk : k.Marked) (hh : k'.header = k.header)
    (hb : k'.body.outline = k.body.outline) (ht : k'.trailing.map Beat.outline = k.trailing.map Beat.outline) :
    k'.Marked := by
  obtain ⟨⟨i, hl, hi, hn⟩, hg⟩ := hk
  have ho : k'.beats.map Beat.outline = k.beats.map Beat.outline := by
    simp only [beats, map_append, map_cons, hh, hb, ht]
  refine ⟨⟨i, ?_, by rwa [hh], by rwa [hh]⟩, ?_⟩
  · rw [leadIndex_outline ho, hl]
  · rw [Node.isGroup_outline hb, hg]

end ClassBeats

lemma not_isGroup_nodesOf {xs : List Beat} {o : String} (h : ∀ x ∈ xs, x.node.isGroup o = false) :
    ∀ n ∈ nodesOf xs, n.isGroup o = false := by
  intro n hn
  obtain ⟨x, hx, hn⟩ := mem_flatMap.1 hn
  rcases mem_append.1 hn with hg | hno
  · obtain ⟨t, -, rfl⟩ : ∃ t, x.gap = some t ∧ .leaf t = n := by simpa [map_eq_some_iff] using hg
    rfl
  · obtain rfl := mem_singleton.1 hno
    exact h x hx

lemma Piece.bodyAt_eq {p : Piece} {fr clauses r : List Node} (hf : fr ≠ [])
    (hno : p.nodes = fr ++ (clauses ++ r)) (hc : ∀ n ∈ clauses, n.isGroup openBrace = false)
    (hr : r.head?.all (fun n => n.isGroup openBrace)) :
    p.bodyAt ((clauses ++ r).length + 1) = (fr ++ clauses).length := by
  have hp := length_pos_iff.2 hf
  have hs : p.nodes.length - ((clauses ++ r).length + 1) + 1 = fr.length := by
    rw [hno, length_append]
    omega
  have hw : (clauses ++ r).takeWhile (fun n => !n.isGroup openBrace) = clauses := by
    rw [takeWhile_append_of_pos (by simpa using hc)]
    cases r with
    | nil => simp
    | cons n r =>
      have hn : n.isGroup openBrace := by simpa using hr
      simp [hn]
  rw [Piece.bodyAt]
  simp only [hs]
  rw [hno, drop_left, hw, length_append]

section Classes

lemma nodesOf_ne_nil (h : xs ≠ []) : nodesOf xs ≠ [] := by
  obtain ⟨x, xs, rfl⟩ := exists_cons_of_ne_nil h
  simp [Beat.nodes]

lemma leadWord_split {w : String} {i : Nat} (hx : ∀ x ∈ xs, x.Valid) (h : leadIndex .outside xs = some (w, i)) :
    leadWord .outside (nodesOf xs) = some (w, (nodesOf (xs.drop (i + 1))).length + 1) ∧ xs.take (i + 1) ≠ [] := by
  have hl := leadWord_nodesOf hx isTail_nil .outside
  rw [h, append_nil, map_some, append_nil] at hl
  refine ⟨hl, fun hn => ?_⟩
  have hlt := leadIndex_lt h
  rw [take_eq_nil_iff] at hn
  rcases hn with hz | rfl
  · omega
  · simp at hlt

lemma ClassBeats.classCut?_eq {k : ClassBeats} (hk : k.Marked) (h : Chunk.Neat ⟨false, k.beats⟩) (b : Bool) :
    Piece.classCut? ⟨nodesOf k.beats, b⟩ = some k.cut := by
  obtain ⟨⟨i, hle, hi, hnn⟩, hg⟩ := hk
  have hv : ∀ x ∈ k.beats, x.Valid := fun x hx => (h.beats x hx).valid
  obtain ⟨hwo, hne⟩ := leadWord_split hv hle
  have ht : k.beats.take (i + 1) = k.header.take (i + 1) := by
    rw [beats, take_append_of_le_length hi]
  have hd : k.beats.drop (i + 1) = k.header.drop (i + 1) ++ k.body :: k.trailing := by
    rw [beats, drop_append_of_le_length hi]
  have hr : nodesOf (k.beats.drop (i + 1)) =
      (nodesOf (k.header.drop (i + 1)) ++ k.body.before) ++ k.body.node :: nodesOf k.trailing := by
    rw [hd, nodesOf_append_cons]
  have hh : nodesOf (k.header.take (i + 1)) ++ (nodesOf (k.header.drop (i + 1)) ++ k.body.before) =
      nodesOf k.header ++ k.body.before := by
    rw [← append_assoc, ← nodesOf_append, take_append_drop]
  have hno : nodesOf k.beats = nodesOf (k.header.take (i + 1)) ++
      ((nodesOf (k.header.drop (i + 1)) ++ k.body.before) ++ k.body.node :: nodesOf k.trailing) := by
    rw [← hr, ← ht, ← nodesOf_append, take_append_drop]
  have hw : nodesOf k.beats = (nodesOf k.header ++ k.body.before) ++ k.body.node :: nodesOf k.trailing := by
    rw [hno, ← append_assoc, hh]
  have hc : ∀ n ∈ nodesOf (k.header.drop (i + 1)) ++ k.body.before, n.isGroup openBrace = false := by
    refine forall_mem_append.2 ⟨not_isGroup_nodesOf hnn, fun n hn => ?_⟩
    obtain ⟨t, -, rfl⟩ : ∃ t, k.body.gap = some t ∧ .leaf t = n := by simpa [Beat.before, map_eq_some_iff] using hn
    rfl
  have ha := Piece.bodyAt_eq (p := ⟨nodesOf k.beats, b⟩) (nodesOf_ne_nil (ht ▸ hne)) hno hc
    (by simpa using hg)
  rw [hh, ← hr] at ha
  have hl : (nodesOf k.beats).takeWhile Node.isTrivia = [] := by
    obtain ⟨n, more, hf⟩ := h.front
    have hn : n.isTrivia = false := (hv ⟨none, n⟩ (by rw [show k.beats = _ from hf]; simp)).node
    rw [show k.beats = _ from hf]
    simp [Beat.nodes, hn]
  rw [Piece.classCut?]
  simp only [hwo, beq_self_eq_true, if_true, ha]
  rw [hw, getElem?_append_right (le_refl _), Nat.sub_self, getElem?_cons_zero, map_some, Piece.cutAt]
  simp only [← hw, hl]
  simp only [hw, take_left, length_nil, drop_zero, ← drop_drop, drop_left, drop_succ_cons]
  rfl

lemma exists_classBeats {c : ClassCut} (hxs : ∀ x ∈ xs, x.Valid)
    (h : Piece.classCut? ⟨nodesOf xs, b⟩ = some c) : ∃ k : ClassBeats, xs = k.beats ∧ k.Marked := by
  rw [Piece.classCut?] at h
  cases hin : leadIndex .outside xs with
  | none =>
    have hle := leadWord_nodesOf hxs isTail_nil .outside
    rw [hin, append_nil, map_none] at hle
    simp only [hle] at h
    cases h
  | some lead =>
    obtain ⟨w, i⟩ := lead
    obtain ⟨hw, hne⟩ := leadWord_split hxs hin
    simp only [hw] at h
    split at h
    · rename_i hc
      obtain rfl := beq_iff_eq.1 hc
      have hlt := leadIndex_lt hin
      have hs : xs = xs.take (i + 1) ++ ((xs.drop (i + 1)).takeWhile (fun x => !x.node.isGroup openBrace) ++
          (xs.drop (i + 1)).dropWhile fun x => !x.node.isGroup openBrace) := by
        rw [takeWhile_append_dropWhile, take_append_drop]
      have hn : ∀ x ∈ (xs.drop (i + 1)).takeWhile (fun x => !x.node.isGroup openBrace),
          x.node.isGroup openBrace = false := fun x hx => by simpa using mem_takeWhile_imp hx
      have hst := head?_dropWhile_any (fun x : Beat => !x.node.isGroup openBrace) (xs.drop (i + 1))
      cases hr : (xs.drop (i + 1)).dropWhile fun x => !x.node.isGroup openBrace with
      | nil =>
        -- Then no body is found.
        exfalso
        have ha : (xs.drop (i + 1)).takeWhile (fun x => !x.node.isGroup openBrace) = xs.drop (i + 1) := by
          have heq := takeWhile_append_dropWhile (p := fun x : Beat => !x.node.isGroup openBrace) (l := xs.drop (i + 1))
          rwa [hr, append_nil] at heq
        rw [ha] at hn
        have hno : nodesOf xs = nodesOf (xs.take (i + 1)) ++ (nodesOf (xs.drop (i + 1)) ++ []) := by
          rw [append_nil, ← nodesOf_append, take_append_drop]
        have hat := Piece.bodyAt_eq (p := ⟨nodesOf xs, b⟩) (nodesOf_ne_nil hne) hno (not_isGroup_nodesOf hn) rfl
        rw [append_nil] at hat
        rw [hat, ← nodesOf_append, take_append_drop, getElem?_eq_none (le_refl _)] at h
        cases h
      | cons y tr =>
        rw [hr] at hs hst
        have hb : xs = ClassBeats.beats ⟨xs.take (i + 1) ++
            (xs.drop (i + 1)).takeWhile (fun x => !x.node.isGroup openBrace), y, tr⟩ := by
          rw [ClassBeats.beats, append_assoc]
          exact hs
        have hl : (xs.take (i + 1)).length = i + 1 := by
          rw [length_take]
          omega
        refine ⟨_, hb, ⟨i, by rw [← hb]; exact hin, ?_, ?_⟩, by simpa using hst⟩
        · rw [length_append, hl]
          omega
        · rw [drop_left' hl]
          exact hn
    · cases h

end Classes

lemma isChain_of_forall₂ {α β : Type*} {R : α → β → Prop} {P : α → α → Prop} {Q : β → β → Prop} {as : List α}
    {bs : List β} (him : ∀ {a a' b b'}, R a b → R a' b' → P a a' → Q b b') (h : Forall₂ R as bs)
    (has : as.IsChain P) : bs.IsChain Q := by
  induction h with
  | nil => exact .nil
  | @cons a b as bs ha hr ih =>
    obtain ⟨hf, hm⟩ := isChain_cons.1 has
    refine isChain_cons.2 ⟨fun b' hb' => ?_, ih hm⟩
    cases hr with
    | nil => cases hb'
    | cons ha' _ =>
      cases hb'
      exact him ha ha' (hf _ rfl)

lemma blankBefore_memberCut (c : Chunk) : c.memberCut.blankBefore = c.blankBefore := by
  unfold Chunk.memberCut cutMember
  split <;> rfl

lemma Chunk.Relaid.outline {e : Entry} (h : c.Relaid e) :
    ∃ x, c.beats.head? = some x ∧ e.node.outline = x.node.outline := by
  have he := h.eased
  rw [Entry.body] at he
  cases hb : c.beats with
  | nil =>
    rw [hb] at he
    cases he
  | cons x xs =>
    rw [hb] at he
    cases he with
    | cons hx _ => exact ⟨x, rfl, hx.outline⟩

lemma exists_members {ys : List Beat} (hy : ∀ x ∈ ys, x.Neat) :
    ∃ es : List Entry, Column "\n" (stack "\n" MemberCut.blankBefore MemberCut.stretches
        ((memberChunks false ys).map Chunk.memberCut)) ((memberChunks false ys).map Chunk.blankBefore) es ∧
      Restacked (memberChunks false ys) es := by
  obtain ⟨es, hes, hco⟩ := exists_column Chunk.blankBefore
    (fun gap c => c.memberCut.stretches gap) Chunk.Relaid (memberChunks false ys) "\n" (newlines_spec false).1
    (fun gap hg c hc => exists_member (neat_memberChunks hy c hc) (exists_shape c hc).1 hg)
  refine ⟨es, by simpa only [stack_map, blankBefore_memberCut] using hco, hes, ⟨fun e he => ?_, ?_, hco.tail⟩,
    fun x hx => (hco.neat x hx).valid, by rw [hco.blank, map_tail]⟩
  · obtain ⟨c, hc, hr⟩ := exists_of_forall₂_right hes he
    obtain ⟨x, hx, ho⟩ := hr.outline
    refine ⟨hr.shape.eased hr.eased, ?_⟩
    rw [Beat.isSemicolon, Node.isLeaf_outline ho]
    exact (exists_shape c hc).2 x hx
  · exact isChain_of_forall₂ (fun h _ hb => h.shape.breakable_eased h.eased hb) hes (isChain_breakable false ys)

lemma exists_classBody_relaid {gap tx : String} (tl : String) (us : List Token) {ts : List Token}
    (post rs : List Token) (seams : List (List Token)) {g : List Char} {n : Node} (hn : n.Neat) (hgr : n.isGroup openBrace)
    (ht : tx.toList = charsOf ts ++ g) (hg : IsGap g) (he : InkEdged (charsOf ts))
    (hcd : inked us = inked ts) (hga : IsGap gap.toList) (hta : tl.toList = charsOf rs)
    (hb : inked post = inked rs) (hed : rs = [] ∨ EndsInk (charsOf rs)) :
    ∃ (lead g' : List Char) (n' : Node), IsGap lead ∧ '\n' ∉ lead ∧ IsGap g' ∧ ('\n' ∈ g' → '\n' ∈ g) ∧ n'.Neat ∧
      n'.outline = n.outline ∧ endsLine n'.inside = (!((cutMembers false n.inside).filter MemberCut.isMember).isEmpty) ∧
      (∃ cs es tl, (cutMembers false n.inside).filter MemberCut.isMember = cs.map Chunk.memberCut ∧ Restacked cs es ∧
        IsTail tl ∧ n'.inside = nodesOf (es.flatMap Entry.beats) ++ tl) ∧
      Renders (block (opening gap tx 0 us n.first seams) (stack "\n" MemberCut.blankBefore MemberCut.stretches
          ((cutMembers false n.inside).filter MemberCut.isMember)) 0 tl (n.last :: post))
        ((gapToken (gap.toList ++ lead)).toList ++ (ts ++ ((gapToken g').toList ++ (n'.tokens ++ rs)))) := by
  obtain ⟨o, ms, c, rfl, ho⟩ := exists_group hgr
  obtain ⟨hf, hoe, hcl, hen⟩ := hn.inside
  obtain ⟨ys, r, rfl, hy, hre, -⟩ := hf.exists_beats
  obtain ⟨es, hc, hr⟩ := exists_members hy
  obtain ⟨lead, g', hle, hli, hg', hbr, hop⟩ := exists_rendered_opening o ht hg he hcd hga ho 0 seams
  have hco : ∀ gap : String, Renders [closing gap tl (c :: post)] ((gapToken gap.toList).toList ++ c :: rs) :=
    fun gap => .closing (isPunct_closeBrace ho hcl) hta hb hed
  rw [← append_assoc ts, ← append_assoc _ _ [o]] at hop
  obtain ⟨g₃, hg₃, hl, hbl⟩ := hc.exists_block hop hco 0
  have hm := cutMembers_nodesOf (fun x hx => (hy x hx).valid) hre false
  refine ⟨lead, g', .group o (nodesOf (es.flatMap Entry.beats) ++ gapNodes g₃) c, hle, hli, hg', hbr,
    (fair_nodesOf hc.neat hg₃).group hoe hcl hen, rfl, ?_,
    ⟨_, es, gapNodes g₃, hm, hr, isTail_gapNodes g₃, rfl⟩, ?_⟩
  · have hne : ∀ gap, ∀ cut ∈ (cutMembers false (nodesOf ys ++ r)).filter MemberCut.isMember, cut.stretches gap ≠ [] :=
      fun gap cut hcu => MemberCut.stretches_ne_nil (mem_filter.1 hcu).2 gap
    rw [← hm, isEmpty_stack hne] at hl
    simp only [Node.inside, endsLine_gapNodes (fun x hx => (hc.neat x hx).valid), hl, Bool.decide_eq_false]
  · simp only [Node.inside, Node.first, Node.last, hm]
    simpa using hbl

lemma ClassBeats.stretches_cut (k : ClassBeats) (gap : String) : k.cut.stretches gap = k.cut.declaration gap := by
  have he : (trim (textOf [])).isEmpty := by
    rw [textOf, tokensOf_nil]
    decide
  rw [ClassCut.stretches]
  simp only [ClassBeats.cut, he, if_true]

lemma exists_class {k : ClassBeats} (hk : k.Marked) (hna : Chunk.Neat ⟨false, k.beats⟩) {gap : String}
    (hga : IsGap gap.toList) :
    ∃ (k' : ClassBeats) (e : Entry), e.body = k'.beats ∧ e.Prints gap (k.cut.stretches gap) ∧ k'.Marked ∧
      Chunk.Neat ⟨false, k'.beats⟩ ∧ Forall₂ Eased k.beats k'.beats ∧ k.cut.Relaid k'.cut := by
  have hm : ∀ x, x ∈ k.header ∨ x = k.body ∨ x ∈ k.trailing → x.Neat := fun x hx =>
    hna.beats x (by simpa [ClassBeats.beats] using hx)
  have hh : ∀ x ∈ k.header, x.Neat := fun x hx => hm x (.inl hx)
  have htr : ∀ x ∈ k.trailing, x.Neat := fun x hx => hm x (.inr (.inr hx))
  have hbo : k.body.Neat := hm _ (.inr (.inl rfl))
  have hne : k.header ≠ [] := by
    obtain ⟨i, -, hi, -⟩ := hk.lead
    exact ne_nil_of_length_pos (Nat.zero_lt_of_lt hi)
  have hf : ∃ n more, k.header = ⟨none, n⟩ :: more := by
    obtain ⟨n, more, hf⟩ := hna.front
    obtain ⟨x, xs, hx⟩ := exists_cons_of_ne_nil hne
    have hfi : x :: (xs ++ k.body :: k.trailing) = ⟨none, n⟩ :: more := by
      simpa [ClassBeats.beats, hx] using hf
    exact ⟨n, xs, by rw [hx, (cons.inj hfi).1]⟩
  have hop : Chunk.Neat ⟨false, k.header⟩ := ⟨hh, hf⟩
  obtain ⟨g, hte, hg, hnw⟩ := exists_trimmed_end (textOf (nodesOf k.header ++ k.body.before)) hh
    hne hbo.isGap_before (toList_textOf_eq_charsOf _)
  have hba : IsGap (charsOf (tokensOf [])) := by simp [IsGap]
  have hb : (textOf (nodesOf k.trailing)).toList = charsOf (tokensOf (nodesOf k.trailing ++ [])) := by
    rw [append_nil]
    exact toList_textOf_eq_charsOf _
  obtain ⟨g₁, g₂, hti, -⟩ := exists_trimming htr hba hb
  obtain ⟨g₁, g₂, hs⟩ := hti.spaced ((trim (textOf (nodesOf k.trailing))).toList.head? == some ';')
  obtain rfl := hs.backNil rfl
  have hna' := neat_regap htr hs.front
  obtain ⟨lead, g', n, hle, hli, hg', hbr, hn, ho, hl, hme, hbl⟩ := exists_classBody_relaid
    k.cut.tail (tokensOf k.cut.header) (tokensOf (nodesOf k.trailing))
    (tokensOf (nodesOf (regap (gapToken g₁) k.trailing)))
    [dropTrailingBlanks (tokensOf k.cut.header)] hbo.node hk.body hte hg
    hop.inkEdged
    (by
      rw [ClassBeats.cut, tokensOf_append, inked_append, inked_of_blank hbo.isTail_before.kind, append_nil])
    hga (by rw [← append_nil (charsOf _), ← hs.chars]; rfl)
    (inked_regap (fun x hx => (htr x hx).valid) fun t ht => (kind_gapToken ht).1).symm
    (by
      by_cases hni : k.trailing = []
      · exact .inl (by simp [hni, regap])
      · exact .inr (endsInk_nodesOf hna' (mt regap_eq_nil.1 hni)))
  have hbe : ClassBeats.beats ⟨k.header, ⟨gapToken g', n⟩, regap (gapToken g₁) k.trailing⟩ =
      k.header ++ ⟨gapToken g', n⟩ :: regap (gapToken g₁) k.trailing := rfl
  have ha : Chunk.Neat ⟨false, ClassBeats.beats ⟨k.header, ⟨gapToken g', n⟩, regap (gapToken g₁) k.trailing⟩⟩ := by
    obtain ⟨fst, more, hfi⟩ := hf
    refine ⟨?_, fst, more ++ ⟨gapToken g', n⟩ :: regap (gapToken g₁) k.trailing, by rw [hbe, hfi]; rfl⟩
    rw [hbe, forall_mem_append]
    exact ⟨hh, forall_mem_cons.2 ⟨hn.behind hg', hna'⟩⟩
  have hla : Eased k.body ⟨gapToken g', n⟩ := eased_gapToken ho fun hm => breaks_of_mem (hnw (hbr hm))
  have hb : Forall₂ Eased k.trailing (regap (gapToken g₁) k.trailing) := eased_regap hs.frontBreak
  have hma : ClassBeats.Marked ⟨k.header, ⟨gapToken g', n⟩, regap (gapToken g₁) k.trailing⟩ :=
    hk.relaid rfl ho (map_outline_of_eased hb)
  obtain ⟨e, he, hp⟩ := exists_entry ha hga hle hli (k.cut.stretches gap) (by
    rw [hbe, nodesOf_append, tokensOf_append, nodesOf_cons, tokensOf_append, tokensOf_nodes, append_assoc, k.stretches_cut]
    exact hbl)
  refine ⟨_, e, he, hp, hma, ha, ?_, rfl, rfl, ?_, ?_, ho, hl, hme⟩
  · rw [hbe, ClassBeats.beats]
    exact rel_append (eased_refl _) (.cons hla hb)
  · exact ⟨nodesOf k.header, _, _, rfl, rfl, hbo.isTail_before, (hn.behind hg').isTail_before⟩
  · have hr := Recut.intro (gapToken g₁) (fun x hx => (htr x hx).valid)
      (fun x hx => (hna' x hx).valid) isTail_nil isTail_nil
    rwa [append_nil, append_nil] at hr

lemma exists_piece (hc : c.Neat) {gap : String} (hg : IsGap gap.toList) :
    ∃ e : Entry, e.Prints gap (c.piece.stretches gap) ∧ c.EasedTo e ∧ c.piece.Relaid e.chunk.piece := by
  have hv : ∀ x ∈ c.beats, x.Valid := fun x hx => (hc.beats x hx).valid
  rw [Piece.stretches]
  cases hcu : c.piece.classCut? with
  | none =>
    obtain ⟨e, he, hp⟩ := exists_statement hc hg 0
    refine ⟨e, hp, ?_, .statement hcu ?_ (congrArg nodesOf he)⟩
    · rw [Chunk.EasedTo, he]
      exact eased_refl _
    · have hco : e.chunk.piece = ⟨c.piece.nodes, e.chunk.blankBefore⟩ := by
        rw [Chunk.piece, Chunk.piece, ← he]
        rfl
      rw [hco]
      exact hcu
  | some cut =>
    obtain ⟨k, hb, hk⟩ := exists_classBeats hv hcu
    have hn : Chunk.Neat ⟨false, k.beats⟩ := hb ▸ ⟨hc.beats, hc.front⟩
    have hf : c.piece.classCut? = some k.cut := by
      rw [Chunk.piece, hb]
      exact k.classCut?_eq hk hn _
    obtain rfl := some.inj (hcu.symm.trans hf)
    obtain ⟨k', e, he, hp, hk', hn', hea, hr⟩ := exists_class hk hn hg
    refine ⟨e, hp, ?_, .classDecl hcu ?_ hr⟩
    · rw [Chunk.EasedTo, he, hb]
      exact hea
    · rw [Chunk.piece, Entry.chunk, he]
      exact k'.classCut?_eq hk' hn' _

lemma exists_relaid {nodes : List Node} (h : Fair nodes) : ∃ relaid : List Node, Fair relaid ∧
      (stretches nodes = [] ∧ relaid = [] ∨ Renders (stretches nodes) (tokensOf relaid)) ∧
      Forall₂ Piece.Relaid (splitStatements false nodes) (splitStatements false relaid) ∧
      (splitStatements false relaid).tail.map Piece.blankBefore =
        (splitStatements false nodes).tail.map Piece.blankBefore := by
  obtain ⟨xs, tail, rfl, hxs, ht, -⟩ := h.exists_beats
  have hs := splitStatements_nodesOf (fun x hx => (hxs x hx).valid) ht false
  obtain ⟨es, hes, hco⟩ := exists_column Chunk.blankBefore
    (fun gap c => c.piece.stretches gap) (fun c e => c.EasedTo e ∧ c.piece.Relaid e.chunk.piece) (chunks false xs) ""
    (by simp [IsGap]) (fun gap hg c hc => exists_piece (neat_chunks hxs c hc) hg)
  have hre : splitStatements false (nodesOf (es.flatMap Entry.beats)) = es.map fun e => e.chunk.piece := by
    have hch := splitStatements_nodesOf (fun x hx => (hco.neat x hx).valid) isTail_nil false
    rw [chunks_entries (hes.imp fun _ _ he => he.1) hco.tail, append_nil, List.map_map] at hch
    exact hch
  have hst : stretches (nodesOf xs ++ tail) =
      stack "" Chunk.blankBefore (fun gap c => c.piece.stretches gap) (chunks false xs) := by
    rw [stretches, hs, stack_map]
    rfl
  refine ⟨nodesOf (es.flatMap Entry.beats), fair_beats hco.neat, ?_, ?_, ?_⟩
  · rw [hst]
    rcases hco.renders with ⟨rfl, hn⟩ | ⟨-, hr⟩
    · exact .inl ⟨hn, rfl⟩
    · exact .inr hr
  · rw [hs, hre, forall₂_map_left_iff, forall₂_map_right_iff]
    exact hes.imp fun _ _ he => he.2
  · have hb := hco.blank
    rw [← map_tail] at hb
    rw [hs, hre, ← map_tail, ← map_tail, List.map_map, List.map_map]
    exact hb

end CustomElement.Script
