import CustomElement.Proofs.Script.Gists

/-!
# Reading what is printed

Printing a script without comments and reading it again gives back the gist of the script, if it prints safely and no
member of a class is carried on by the next one (`print_parses_back_iff`).
-/

namespace CustomElement.Script

open List Text

variable {c : ClassCut} {ms ns : List Node} {nodes : List Node}

/-- The member is not ended by its own nodes, and a line that begins with the token carries it on. -/
def MemberCut.carriedOn (t : Token) : MemberCut → Bool
  | .other _ nodes =>
    match memberEnd .outside false none none nodes with
    | .runsOn => t.continuesExpression
    | .params n =>
      match signatureEnd (nodes.drop (n + 1)) with
      | .runsOn => t.isPunct openBrace || t.continuesExpression
      | _ => false
    | _ => false
  | _ => false

def apart : List MemberCut → Bool
  | a :: b :: cuts => (nextCode b.nodes).all (fun t => !a.carriedOn t) && apart (b :: cuts)
  | _ => true

lemma apart_iff_isChain {cuts : List MemberCut} :
    apart cuts ↔ cuts.IsChain fun a b => ∀ t ∈ nextCode b.nodes, a.carriedOn t = false := by
  induction cuts with
  | nil => simp [apart]
  | cons a cuts ih =>
    cases cuts with
    | nil => simp [apart]
    | cons b cuts => rw [apart, and_eq_true, ih, isChain_cons_cons, Option.all_eq_true]; simp

/-- No member of a class of the script is carried on by the next one. -/
def membersApart (nodes : List Node) : Bool :=
  (splitStatements false nodes).all fun p => p.classCut?.all fun c => apart c.members

lemma membersApart_iff : membersApart nodes ↔ ∀ p ∈ splitStatements false nodes, ∀ c ∈ p.classCut?, apart c.members := by
  simp only [membersApart, all_eq_true, Option.all_eq_true, Option.mem_def]

section Chunks

variable {c : Chunk}

lemma MethodBeats.nodes_cut (m : MethodBeats) : m.cut.nodes = nodesOf m.beats := by
  rw [MethodBeats.beats, nodesOf_append_cons, nodesOf_append_cons, MethodCut.nodes, MethodBeats.cut]
  simp

lemma Shape.nodes_memberCut (h : Shape c.beats) (hv : ∀ x ∈ c.beats, x.Valid) : c.memberCut.nodes = nodesOf c.beats := by
  rcases h.memberCut_cases hv with ⟨m, hb, -, hc⟩ | ⟨-, hc⟩
  · rw [hc, MemberCut.nodes, append_nil, m.nodes_cut, hb]
  · rw [hc, MemberCut.nodes]

lemma Shape.carriedOn_memberCut (h : Shape c.beats) (hv : ∀ x ∈ c.beats, x.Valid) (t : Token) :
    c.memberCut.carriedOn t = carriesOn c.beats t := by
  rcases h.memberCut_cases hv with ⟨m, hb, hm, hc⟩ | ⟨-, hc⟩
  · rw [hc, hb, carriesOn, hm.params]
    simp only [m.drop_beats, hm.body, MemberCut.carriedOn]
  · have he := memberEnd_start hv isTail_nil
    rw [append_nil] at he
    rw [hc, MemberCut.carriedOn, carriesOn, he]
    cases hb : memberBeats .start c.beats with
    | params k =>
      obtain ⟨hs, p, rest, hsp, rfl, hd⟩ := exists_params hb
      have hr : ∀ x ∈ rest, x.Valid := fun x hx => hv x (by simp [hsp, hx])
      have hn : (nodesOf c.beats).drop ((nodesOf hs ++ p.before).length + 1) = nodesOf rest := by
        rw [hsp, nodesOf_append_cons, ← drop_drop, drop_left, drop_one, tail_cons]
      have hsi := signatureEnd_nodesOf hr isTail_nil
      rw [append_nil] at hsi
      simp only [MemberEnd.inNodes, hd]
      rw [hsp, nodesBefore_append, ← hsp, hn, hsi]
      cases signatureBeats rest <;> rfl
    | _ => rfl

end Chunks

lemma isChain_iff_of_forall₂ {α β : Type*} {R : α → β → Prop} {P : α → α → Prop} {Q : β → β → Prop} {as : List α}
    {bs : List β} (hif : ∀ {a a' b b'}, R a b → R a' b' → (P a a' ↔ Q b b')) (h : Forall₂ R as bs) :
    as.IsChain P ↔ bs.IsChain Q :=
  ⟨isChain_of_forall₂ (fun ha ha' => (hif ha ha').1) h,
    isChain_of_forall₂ (R := flip R) (fun ha ha' => (hif ha ha').2) h.flip⟩

lemma Chunk.Relaid.carriesOn_iff {c c' : Chunk} {e e' : Entry} (h : c.Relaid e) (h' : c'.Relaid e') :
    (∀ t ∈ nextCode c'.memberCut.nodes, c.memberCut.carriedOn t = false) ↔ carriesOn e.body e'.node.first = false := by
  obtain ⟨x, hx, ho⟩ := h'.outline
  obtain ⟨xs, hb⟩ := head?_eq_some_iff.1 hx
  have hn : nextCode c'.memberCut.nodes = some e'.node.first := by
    have hc := nextCode_nodesOf h'.valid isTail_nil
    rw [append_nil, hb, nextBeat] at hc
    rw [h'.shape.nodes_memberCut h'.valid, hb, hc, Node.first_outline ho]
    rfl
  rw [hn, h.shape.carriesOn_eased h.eased]
  simp only [h.shape.carriedOn_memberCut h.valid, Option.mem_some_iff, forall_eq']

lemma Restacked.apart_iff {cs : List Chunk} {es : List Entry} (h : Restacked cs es)
    (hm : c.members = cs.map Chunk.memberCut) : apart c.members ↔ Apart es := by
  rw [apart_iff_isChain, hm, isChain_map]
  exact isChain_iff_of_forall₂ (fun h h' => h.carriesOn_iff h') h.relaid

lemma MethodCut.Relaid.core_eq {c c' : MethodCut} (h : c.Relaid c') : c'.core = c.core := by
  have hb := congrArg (List.map Script.core) h.body.nodes
  rw [List.map_map, List.map_map] at hb
  simp only [MethodCut.core, h.head.core_eq, h.params.core_eq, h.between.core_eq, MethodCore.mk.injEq, true_and]
  exact ⟨hb, h.body.blank⟩

lemma MemberCut.Relaid.core_eq {a b : MemberCut} (h : a.Relaid b) : b.core = a.core := by
  cases h with
  | other bl bl' nodes => rfl
  | method bl bl' h => exact congrArg MemberCore.method h.core_eq

lemma members_of_inside {xs : List Beat} {tl : List Node} (hx : ∀ x ∈ xs, x.Valid) (ht : IsTail tl)
    (h : c.body.inside = nodesOf xs ++ tl) : c.members = (memberChunks false xs).map Chunk.memberCut := by
  rw [ClassCut.members, h, cutMembers_nodesOf hx ht]

lemma ClassCut.Relaid.core_eq {c' : ClassCut} (h : c.Relaid c') (ha : apart c.members) : c'.core = c.core := by
  obtain ⟨fr, tl, tl', hh, hh', ht, ht'⟩ := h.header
  obtain ⟨cs, es, post, hm, hs, hb, hin⟩ := h.members
  have hc := clausesOf_append_blank fr ht.blank (core_append_blank ht.blank)
  have hc' := clausesOf_append_blank fr ht'.blank (core_append_blank ht'.blank)
  have he : c'.members = es.map fun e => e.chunk.memberCut := by
    rw [members_of_inside hs.valid hb hin, memberChunks_entries hs.stacked ((hs.apart_iff hm).1 ha), map_map]
    rfl
  have hre : c'.members.map MemberCut.core = c.members.map MemberCut.core := by
    rw [he, hm, map_map, map_map]
    exact map_eq_of_forall₂ (hs.relaid.imp fun _ _ hr => hr.cut.core_eq)
  have hsp : c'.members.tail.map MemberCut.blankBefore = c.members.tail.map MemberCut.blankBefore := by
    rw [he, hm, ← map_tail, ← map_tail, map_map, map_map]
    simpa only [comp_def, blankBefore_memberCut] using hs.blank
  simp only [ClassCut.core, hh, hh', hc, hc', core_append_blank ht.blank,
    core_append_blank ht'.blank, h.trailing.core_eq, hre, hsp]

lemma exists_split_of_forall₂ {α β : Type*} {R : α → β → Prop} {as : List α} {bs bs' : List β} {b : β}
    (h : Forall₂ R as (bs ++ b :: bs')) : ∃ fr a more, as = fr ++ a :: more ∧ fr.length = bs.length ∧ R a b := by
  induction bs generalizing as with
  | nil =>
    cases h with
    | cons ha _ => exact ⟨[], _, _, rfl, rfl, ha⟩
  | cons _ bs ih =>
    cases h with
    | @cons a' _ _ _ _ hr =>
      obtain ⟨fr, a, more, rfl, hl, ha⟩ := ih hr
      exact ⟨a' :: fr, a, more, rfl, by simp [hl], ha⟩

lemma Fair.ink_wordingOf (h : Fair ns) : ink (wordingOf (core ns)) = ink (textOf ns).toList := by
  rw [wordingOf, ink_worded, h.ink_core]

lemma MemberCut.Relaid.nodes_eq {b b' : Bool} (h : (MemberCut.other b ns).Relaid (.other b' ms)) : ms = ns := by
  cases h
  rfl

lemma Chunk.Relaid.carried {c : Chunk} {e : Entry} (h : c.Relaid e) (he : ∀ x ∈ e.body, x.Valid) {t : Token}
    (hon : carriesOn e.body t) : c.memberCut = .other c.blankBefore (nodesOf e.body) := by
  rw [h.shape.carriesOn_eased h.eased, ← h.shape.carriedOn_memberCut h.valid] at hon
  have hc := h.cut
  rcases h.shape.memberCut_cases h.valid with ⟨m, -, -, hm⟩ | ⟨-, ho⟩
  · rw [hm] at hon
    cases hon
  · have hs : Shape e.chunk.beats := h.shape.eased h.eased
    rw [ho] at hc ⊢
    rcases hs.memberCut_cases he with ⟨m, -, -, hm⟩ | ⟨-, ho'⟩
    · rw [hm] at hc
      cases hc
    · rw [ho'] at hc
      rw [← hc.nodes_eq]
      rfl

lemma ClassCut.Relaid.gist_ne {c' : ClassCut} (h : c.Relaid c') (hf : Fair c'.body.inside)
    (hno : ¬ apart c.members) : c'.core.gist ≠ c.core.gist := by
  obtain ⟨cs, es, behind, hme, hs, hbe, hin⟩ := h.members
  obtain ⟨pre, e, post, t, more, later, b, r, he, hon, hne, -, hre⟩ :=
    memberChunks_carried hs.stacked (mt (hs.apart_iff hme).2 hno)
  have hna : ∀ x ∈ es.flatMap Entry.beats, x.Neat := (hin ▸ hf).neat hs.valid
  have hc : Chunk.mk b (e.body ++ more) ∈ memberChunks false (es.flatMap Entry.beats) := by simp [hre]
  have hb := (neat_memberChunks hna _ hc).beats
  intro heq
  have hg : c'.members.map (fun cut => cut.core.gist) = c.members.map fun cut => cut.core.gist := by
    have hma := congrArg ClassGist.members heq
    simpa only [ClassCore.gist, ClassCut.core, map_map, comp_def] using hma
  -- The member is the first one that differs.
  have hr := hs.relaid
  rw [he] at hr
  obtain ⟨fr, k, aft, hcs, hl, hk⟩ := exists_split_of_forall₂ hr
  have hm : (Chunk.mk b (e.body ++ more)).memberCut.core.gist = k.memberCut.core.gist := by
    rw [members_of_inside hs.valid hbe hin, hre, hme, hcs, map_map, map_map, map_append,
      map_append, map_cons, map_cons] at hg
    exact (cons.inj (append_inj_right hg (by simp [hl]))).1
  obtain ⟨hbo, hmo⟩ := forall_mem_append.1 hb
  rw [hk.carried (fun x hx => (hbo x hx).valid) hon] at hm
  rcases (exists_shape _ hc).1.memberCut_cases fun x hx => (hb x hx).valid with ⟨m, -, -, hmt⟩ | ⟨-, ho⟩
  · rw [hmt] at hm
    cases hm
  · rw [ho] at hm
    have hik := congrArg ink (MemberGist.other.inj hm)
    dsimp only [MemberCut.nodes] at hik
    rw [(fair_beats hb).ink_wordingOf, (fair_beats hbo).ink_wordingOf, toList_textOf_eq_charsOf,
      toList_textOf_eq_charsOf, nodesOf_append, tokensOf_append, charsOf_append, ink_append] at hik
    have hn := self_eq_append_right.1 hik.symm
    obtain ⟨a, d, hch, hd⟩ := endsInk_nodesOf hmo hne
    rw [hch, ink_append, ink_cons_of_not_gap hd] at hn
    simp at hn

lemma Piece.Relaid.gist_iff {p q : Piece} (h : p.Relaid q) (hq : Fair q.nodes) :
    q.core.gist = p.core.gist ↔ ∀ c ∈ p.classCut?, apart c.members := by
  cases h with
  | statement hp hq hn => simp [Piece.core, hp, hq, hn]
  | @classDecl c c' hp hcu hc =>
    obtain ⟨hn, -, -, hb⟩ := Piece.classCut?_eq_some hcu
    have hs : q.nodes = c'.leading ++ (c'.header ++ ([c'.body] ++ c'.trailing)) := hn
    rw [hs] at hq
    have hin : Fair c'.body.inside := hq.of_append.2.of_append.2.of_append.1.inside hb
    simp only [Piece.core, hp, hcu, PieceCore.gist, ItemGist.classDecl.injEq, Option.mem_some_iff, forall_eq']
    constructor
    · intro hg
      by_contra hno
      exact hc.gist_ne hin hno hg
    · intro ha
      rw [hc.core_eq ha]

lemma gists_iff {ps qs : List Piece} (h : Forall₂ Piece.Relaid ps qs) (hqs : ∀ q ∈ qs, Fair q.nodes) :
    (qs.map fun q => q.core.gist) = (ps.map fun p => p.core.gist) ↔ ∀ p ∈ ps, ∀ c ∈ p.classCut?, apart c.members := by
  induction h with
  | nil => simp
  | cons hp _ ih =>
    obtain ⟨hq, hqs⟩ := forall_mem_cons.1 hqs
    rw [map_cons, map_cons, cons.injEq, hp.gist_iff hq, ih hqs, forall_mem_cons]

lemma gist_forest (h : InPlace nodes) (hc : Uncommented nodes) :
    Module.gist ⟨(splitStatements false nodes).map Piece.item⟩ = (splitStatements false nodes).map fun p => p.core.gist := by
  rw [Module.gist, map_map]
  refine map_congr_left fun p hp => ?_
  exact p.gist_item (h.splitStatements hp) ((h.fair hc).splitStatements hp).uncommented

lemma map_statements_of_tidy {α : Type} {f : Piece → α} (hf : ∀ p : Piece, f (p.map tidy) = f p)
    (h : ns.map (Node.map tidy) = ms.map (Node.map tidy)) :
    (splitStatements false ns).map f = (splitStatements false ms).map f := by
  have hm : ∀ ns : List Node, (splitStatements false (ns.map (Node.map tidy))).map f = (splitStatements false ns).map f := by
    intro ns
    rw [gentle_tidy.splitStatements, map_map]
    exact map_congr_left fun p _ => hf p
  rw [← hm, h, hm]

lemma map_core_of_tidy (h : ns.map (Node.map tidy) = ms.map (Node.map tidy)) :
    (splitStatements false ns).map Piece.core = (splitStatements false ms).map Piece.core :=
  map_statements_of_tidy Piece.core_tidy h

lemma getLast?_of_endsInk {ts : List Token} (hp : Proper (ts.map form)) (h : EndsInk (charsOf ts)) :
    ts.getLast?.all (fun t => t.kind != .blank) := by
  rcases eq_nil_or_concat' ts with rfl | ⟨fr, t, rfl⟩
  · rfl
  · rw [getLast?_concat, all_some, bne_iff_ne]
    intro hb
    obtain ⟨hn, hg⟩ := hp.blank t.form (by simp) hb
    obtain ⟨a, c, hch, hc⟩ := h
    obtain ⟨b, d, hd⟩ := (eq_nil_or_concat' t.text.toList).resolve_left hn
    have hl : c = d := by
      have he := congrArg getLast? hch
      rw [charsOf_append, charsOf_cons, hd] at he
      simpa using he.symm
    have hg' : isGap d := hg d (by rw [show t.form.text = t.text.toList from rfl, hd]; simp)
    rw [hl, hg'] at hc
    cases hc

/-- **The nodes of a printed script** are those of the script laid out anew. -/
lemma exists_printed (h : InPlace nodes) (hco : Uncommented nodes) (hs : PrintsSafely nodes) :
    ∃ us printed relaid, tokenize (Module.print ⟨(splitStatements false nodes).map Piece.item⟩) = .ok us ∧
      forest (Module.print ⟨(splitStatements false nodes).map Piece.item⟩) us = .ok printed ∧ Uncommented printed ∧
      Fair relaid ∧ printed.map (Node.map tidy) = relaid.map (Node.map tidy) ∧
      Forall₂ Piece.Relaid (splitStatements false nodes) (splitStatements false relaid) ∧
      (splitStatements false relaid).tail.map Piece.blankBefore =
        (splitStatements false nodes).tail.map Piece.blankBefore := by
  obtain ⟨relaid, hf, hr, hpi, hb⟩ := exists_relaid (h.fair hco)
  obtain ⟨fs, hfs, he⟩ := (readsAs_print_iff h).2 hs
  obtain ⟨us, hto, rfl⟩ := tokenize_eq_ok_iff.2 hfs
  have hc : charsOf us = (stretches nodes).flatMap Stretch.chars := by
    rw [← toList_print, ← hfs.flatMap_text, flatMap_map]
    rfl
  -- What is read has the code of the stretches, so no comments.
  have hpl : ∀ t ∈ (stretches nodes).flatMap Stretch.tokens, t.isComment = false := fun t ht =>
    hco t ((parted_stretches h).kept_sublist.subset ht)
  have hu : ∀ t ∈ us, t.isComment = false := by
    rw [← essences_code_iff, he, essences_code_iff]
    exact hpl
  have hcd : inked us = inked ((stretches nodes).flatMap Stretch.tokens) := by
    rw [← essences_eq_inked hu, he, essences_eq_inked hpl]
  have hti : us.map tidy = (tokensOf relaid).map tidy := by
    rcases hr with ⟨hni, rfl⟩ | hr
    · rw [hni, flatMap_nil] at hc
      have hn : us = [] := by
        cases us with
        | nil => rfl
        | cons t ts =>
          have hne := hfs.proper.text_ne_nil (f := t.form) (by simp)
          rw [charsOf_cons, append_eq_nil_iff] at hc
          exact absurd hc.1 hne
      rw [hn, tokensOf_nil]
    · refine (map_tidy_of_folds hf.proper hfs.proper hf.edged (hr.code.symm.trans hcd.symm)
        (getLast?_of_endsInk hf.proper hr.chars.right)
        (getLast?_of_endsInk hfs.proper (hc ▸ hr.chars.left)) ?_).symm
      rw [hc, hr.chars.folds]
  obtain ⟨printed, hp, hm⟩ := gentle_tidy.exists_forest hf.balanced hti
    (Module.print ⟨(splitStatements false nodes).map Piece.item⟩)
  refine ⟨us, printed, relaid, hto, hp, ?_, hf, hm, hpi, hb⟩
  rw [Uncommented, tokensOf_forest hp]
  exact hu

/-- **When a printed script is read as the script was.** For a script without comments that prints safely, the printed
script is read, and as the same items exactly if no member of a class is carried on by the next one. -/
theorem print_parses_back_iff {source : String} {m : Module} (h : parseModule source = .ok m) :
    ∃ tokens nodes, tokenize source = .ok tokens ∧ forest source tokens = .ok nodes ∧
      ((∀ t ∈ tokens, t.isComment = false) → PrintsSafely nodes →
        ∃ again, parseModule m.print = .ok again ∧ (again.gist = m.gist ↔ membersApart nodes = true)) := by
  obtain ⟨tokens, htokens, h⟩ := bind_eq_ok.1 h
  obtain ⟨nodes, hnodes, h⟩ := bind_eq_ok.1 h
  obtain rfl := ok.inj h
  refine ⟨tokens, nodes, htokens, hnodes, fun hcomment hsafe => ?_⟩
  have hplace := inPlace_forest htokens hnodes
  have huncommented : Uncommented nodes := by
    rw [Uncommented, tokensOf_forest hnodes]
    exact hcomment
  obtain ⟨tokens', printed, relaid, htokens', hprinted, hplain, hfair, htidy, hpieces, -⟩ :=
    exists_printed hplace huncommented hsafe
  refine ⟨⟨(splitStatements false printed).map Piece.item⟩, ?_, ?_⟩
  · exact bind_eq_ok.2 ⟨tokens', htokens', bind_eq_ok.2 ⟨printed, hprinted, rfl⟩⟩
  · have hcores := congrArg (List.map PieceCore.gist) (map_core_of_tidy htidy)
    rw [List.map_map, List.map_map] at hcores
    rw [gist_forest (inPlace_forest htokens' hprinted) hplain, gist_forest hplace huncommented]
    rw [membersApart_iff]
    exact (Eq.congr_left hcores).trans (gists_iff hpieces fun q hq => hfair.splitStatements hq)

theorem print_parses_back_iff_class :
    ∃ m again tokens nodes, parseModule "class A\x7bx;m()\x7b\x7d\x7d" = .ok m ∧
      tokenize "class A\x7bx;m()\x7b\x7d\x7d" = .ok tokens ∧
      forest "class A\x7bx;m()\x7b\x7d\x7d" tokens = .ok nodes ∧ (∀ t ∈ tokens, t.isComment = false) ∧
      PrintsSafely nodes ∧ membersApart nodes = true ∧ parseModule m.print = .ok again ∧ again.gist = m.gist := by
  have heval : ∃ m printed tokens nodes, parseModule "class A\x7bx;m()\x7b\x7d\x7d" = .ok m ∧
      tokenize m.print = .ok printed ∧ tokenize "class A\x7bx;m()\x7b\x7d\x7d" = .ok tokens ∧
      forest "class A\x7bx;m()\x7b\x7d\x7d" tokens = .ok nodes ∧ tokens.all (fun t => !t.isComment) = true ∧
      essences (printed.map Token.form) = essences (((stretches nodes).flatMap Stretch.tokens).map Token.form) ∧
      membersApart nodes = true :=
    ⟨_, _, _, _, by cbv, by cbv, by cbv, by cbv, by cbv, by cbv, by cbv⟩
  obtain ⟨m, printed, tokens, nodes, hparse, hprinted, htokens, hnodes, hcomment, hforms, hapart⟩ := heval
  obtain ⟨tokens', nodes', htokens', hnodes', hback⟩ := print_parses_back_iff hparse
  obtain rfl : tokens = tokens' := ok.inj (htokens.symm.trans htokens')
  obtain rfl : nodes = nodes' := ok.inj (hnodes.symm.trans hnodes')
  have hplain : ∀ t ∈ tokens, t.isComment = false := fun t ht => by simpa using List.all_eq_true.1 hcomment t ht
  have hread : parseModule "class A\x7bx;m()\x7b\x7d\x7d" = .ok ⟨(splitStatements false nodes).map Piece.item⟩ :=
    bind_eq_ok.2 ⟨tokens, htokens, bind_eq_ok.2 ⟨nodes, hnodes, rfl⟩⟩
  obtain rfl := ok.inj (hparse.symm.trans hread)
  have hsafe : PrintsSafely nodes := (readsAs_print_iff (inPlace_forest htokens hnodes)).1
    ⟨_, tokenize_eq_ok_iff.1 ⟨printed, hprinted, rfl⟩, hforms⟩
  obtain ⟨again, hagain, hiff⟩ := hback hplain hsafe
  exact ⟨_, again, tokens, nodes, hparse, htokens, hnodes, hplain, hsafe, hapart, hagain, hiff.2 hapart⟩

example : ((tokenize "class A\x7bx\n;[y]\x7d").toOption.bind fun tokens =>
    (forest "class A\x7bx\n;[y]\x7d" tokens).toOption.map membersApart) = some false := by
  cbv

end CustomElement.Script
