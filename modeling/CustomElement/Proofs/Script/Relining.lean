import CustomElement.Proofs.Script.NormalForm
import CustomElement.Proofs.Script.RoundTrip

/-!
# Trailing commas of what is printed

`relined` is a script with class members and method statements on lines of their own and without the semicolons
between members. Trailing commas are called for by the code and by the line breaks before closing brackets, so a
printed script has all it calls for exactly if `relined` has (`alike_relined`).
-/

namespace CustomElement.Script

open List Text

/-- The same code from outside, which calls for commas alike wherever it stands. -/
structure SettledAlike (as bs : List Node) : Prop where
  outlines : Script.outlines bs = Script.outlines as
  settled : ∀ e k b, Settled e k b bs ↔ Settled e k b as
  after : ∀ e k b, readAfter e k b bs = readAfter e k b as
  pending : ∀ k, Script.pending k bs = Script.pending k as

namespace SettledAlike

variable {as bs cs as' bs' : List Node}

lemma refl (ns : List Node) : SettledAlike ns ns := ⟨rfl, fun _ _ _ => .rfl, fun _ _ _ => rfl, fun _ => rfl⟩

lemma trans (h : SettledAlike as bs) (h' : SettledAlike bs cs) : SettledAlike as cs :=
  ⟨h'.outlines.trans h.outlines, fun e k b => (h'.settled e k b).trans (h.settled e k b),
    fun e k b => (h'.after e k b).trans (h.after e k b), fun k => (h'.pending k).trans (h.pending k)⟩

lemma append (h : SettledAlike as bs) (h' : SettledAlike as' bs') : SettledAlike (as ++ as') (bs ++ bs') where
  outlines := by rw [outlines_append, outlines_append, h.outlines, h'.outlines]
  settled e k b := by rw [settled_append, settled_append, h.settled, h.pending, h.after, h'.settled]
  after e k b := by rw [readAfter_append, readAfter_append, h.pending, h.after, h'.after]
  pending k := by rw [pending_append, pending_append, h.pending, h'.pending]

lemma trivia (ha : ∀ n ∈ as, n.isTrivia) (hb : ∀ n ∈ bs, n.isTrivia) : SettledAlike as bs where
  outlines := by rw [outlines_trivia ha, outlines_trivia hb]
  settled e k b := iff_of_true (settled_trivia hb).1 (settled_trivia ha).1
  after e k b := by rw [(settled_trivia hb).2.1, (settled_trivia ha).2.1]
  pending k := by
    rw [(settled_trivia (e := .block) (b := {}) hb).2.2, (settled_trivia (e := .block) (b := {}) ha).2.2]

lemma group (h : SettledAlike as bs) (o closer : Token) (hl : o.text = "(" ∨ endsLine bs = endsLine as) :
    SettledAlike [.group o as closer] [.group o bs closer] where
  outlines := rfl
  settled e k b := by
    have hc : ((b.enclosure o).isLiteral → wantsComma bs = false) ↔
        ((b.enclosure o).isLiteral → wantsComma as = false) := by
      rcases hl with hp | hl
      · have hli : (b.enclosure o).isLiteral = false := by
          rw [Before.enclosure, hp]
          rfl
        simp [hli]
      · rw [wantsComma_eq, wantsComma_eq, h.outlines, hl]
    have hb : readBehind b o bs closer = readBehind b o as closer := by
      rw [readBehind, readBehind, h.after]
    rw [settled_cons_group, settled_cons_group, h.settled, hc, hb]
  after e k b := by rw [readAfter_cons_group, readAfter_cons_group, readBehind, readBehind, h.after]
  pending k := rfl

lemma node {n m : Node} (ho : m.outline = n.outline) (h : SettledAlike n.inside m.inside)
    (hl : n.isGroup "(" ∨ endsLine m.inside = endsLine n.inside) : SettledAlike [n] [m] := by
  cases n with
  | leaf t =>
    cases m with
    | leaf u =>
      obtain rfl : u = t := congrArg Prod.fst ho
      exact refl _
    | group o ms c => cases ho
  | group o ms c =>
    cases m with
    | leaf u => cases ho
    | group o' ms' c' =>
      obtain ⟨rfl, hc⟩ := Prod.mk.inj ho
      obtain rfl := some.inj hc
      refine h.group o' c' (hl.imp_left fun hg => ?_)
      simp only [Node.isGroup, Token.isPunct, and_eq_true, beq_iff_eq] at hg
      exact hg.2

lemma flatMap {α β : Type*} {f : α → List Node} {g : β → List Node} {xs : List α} {ys : List β}
    (h : Forall₂ (fun x y => SettledAlike (f x) (g y)) xs ys) : SettledAlike (xs.flatMap f) (ys.flatMap g) := by
  induction h with
  | nil => exact refl _
  | cons hx _ ih => exact hx.append ih

end SettledAlike

lemma Scattered.alike {ps : List (List Node)} {ns : List Node} (h : Scattered Node.isBlank ps ns) :
    SettledAlike ps.flatten ns := by
  induction h with
  | nil => exact .refl _
  | @skip _ n _ hn _ ih =>
    have hb : SettledAlike [] [n] := .trivia (by simp) (by simpa using isTrivia_of_isBlank hn)
    exact hb.append ih
  | piece p _ ih => exact (SettledAlike.refl p).append ih

lemma alike_splitStatements (ns : List Node) : SettledAlike ((splitStatements false ns).flatMap Piece.nodes) ns := by
  rw [flatMap_def]
  exact (scattered_splitStatements false ns).alike

lemma Recut.alike {as bs : List Node} (h : Recut as bs) : SettledAlike as bs := by
  obtain @⟨xs, g, tl, tl', hx, hg, hta, hta'⟩ := h
  refine SettledAlike.append ?_ (.trivia (fun n hn => isTrivia_of_isBlank (hta.blank n hn))
    fun n hn => isTrivia_of_isBlank (hta'.blank n hn))
  cases xs with
  | nil => exact .refl _
  | cons x xs =>
    have hb : ∀ y : Beat, y.Valid → ∀ n ∈ (y.gap.map Node.leaf).toList, n.isTrivia := by
      intro y hy n hn
      obtain ⟨t, ht, rfl⟩ := map_eq_some_iff.1 (Option.mem_toList.1 hn)
      exact isTrivia_of_isBlank (by simp [Node.isBlank, isLeaf, hy.gap t ht])
    exact ((SettledAlike.trivia (hb x (hx x mem_cons_self)) (hb ⟨g, x.node⟩
      (hg _ mem_cons_self))).append (.refl [x.node])).append (.refl (nodesOf xs))

def lineBreak : Node := .leaf ⟨.blank, "\n", 0⟩

def broken (ns : List Node) : List Node := if ns.isEmpty then [] else ns ++ [lineBreak]

def Node.around (n : Node) (ns : List Node) : Node := .group n.first ns n.last

def MethodCut.relined (c : MethodCut) : List Node :=
  c.head ++ c.params :: (c.between ++ [c.body.around (broken ((splitStatements false c.body.inside).flatMap Piece.nodes))])

def MemberCut.relined : MemberCut → List Node
  | .method _ c _ => c.relined
  | cut => cut.nodes

def ClassCut.relined (c : ClassCut) : List Node :=
  c.leading ++ (c.header ++ c.body.around (broken (c.members.flatMap MemberCut.relined)) :: c.trailing)

def Piece.relined (p : Piece) : List Node := (p.classCut?.map ClassCut.relined).getD p.nodes

/-- The script with class members and method statements on lines of their own, without semicolons between members. -/
def relined (ns : List Node) : List Node := (splitStatements false ns).flatMap Piece.relined

lemma endsLine_broken (ns : List Node) : endsLine (broken ns) = !ns.isEmpty := by
  cases ns with
  | nil => rfl
  | cons n ns =>
    rw [broken, if_neg (by simp), endsLine, reverse_append, hasNewline]
    simp only [reverse_cons, reverse_nil, nil_append, singleton_append]
    rw [takeWhile_cons_of_pos (by rfl), reverse_cons, tokensOf_append, any_append]
    have hl : (tokensOf [lineBreak]).any Token.hasNewline := by
      rw [lineBreak, tokensOf_cons, tokens_leaf, tokensOf_nil]
      decide
    rw [hl, Bool.or_true]
    rfl

lemma alike_broken (ns : List Node) : SettledAlike (broken ns) ns := by
  rw [broken]
  split
  · rename_i he
    rw [isEmpty_iff.1 he]
    exact .refl _
  · have hb : SettledAlike (ns ++ [lineBreak]) (ns ++ []) :=
      (SettledAlike.refl ns).append (.trivia (by simp [lineBreak, Node.isTrivia, Token.isTrivia]) (by simp))
    rwa [append_nil] at hb

lemma SettledAlike.around {n m : Node} (hn : n.isGroup openBrace) (ho : m.outline = n.outline)
    {ns : List Node} (h : SettledAlike ns m.inside) (hl : endsLine m.inside = !ns.isEmpty) :
    SettledAlike [n.around (broken ns)] [m] := by
  obtain ⟨o, ms, c, rfl, -⟩ := exists_group hn
  exact .node ho ((alike_broken ns).trans h) (.inr (hl.trans (endsLine_broken ns).symm))

lemma isEmpty_flatMap {α : Type*} {f : α → List Node} {as : List α} (h : ∀ a ∈ as, f a ≠ []) :
    (as.flatMap f).isEmpty = as.isEmpty := by
  cases as with
  | nil => rfl
  | cons a as =>
    rw [flatMap_cons, isEmpty_eq_false_iff.2 (append_ne_nil_of_left_ne_nil (h a mem_cons_self) _)]
    rfl

lemma MethodCut.Relaid.alike {c c' : MethodCut} (h : c.Relaid c') (hpa : c.params.isGroup "(")
    (hb : c.body.isGroup openBrace) : SettledAlike c.relined c'.nodes := by
  have hs : SettledAlike ((splitStatements false c.body.inside).flatMap Piece.nodes) c'.body.inside := by
    rw [flatMap_def, ← h.body.nodes, ← flatMap_def]
    exact alike_splitStatements c'.body.inside
  have he : ((splitStatements false c.body.inside).flatMap Piece.nodes).isEmpty =
      (splitStatements false c.body.inside).isEmpty := by
    refine isEmpty_flatMap fun p hp hn => ?_
    have hh := head?_splitStatements false _ p hp
    simp [hn] at hh
  have hl : SettledAlike [c.params] [c'.params] := .node h.brackets.1 h.params.alike (.inl hpa)
  refine h.head.alike.append (hl.append (h.between.alike.append ?_))
  exact .around hb h.brackets.2 hs (by rw [he, h.lines])

lemma Chunk.Relaid.alike {c : Chunk} {e : Entry} (h : c.Relaid e) (he : ∀ x ∈ e.beats, x.Valid) :
    SettledAlike c.memberCut.relined (nodesOf e.beats) := by
  have hb : ∀ x ∈ e.body, x.Valid := by
    intro x hx
    rcases mem_cons.1 hx with rfl | hx
    · exact ⟨by simp, (he ⟨e.gap, e.node⟩ mem_cons_self).node⟩
    · exact he x (mem_cons_of_mem _ hx)
  have hs : Shape e.chunk.beats := h.shape.eased h.eased
  have hn : e.chunk.memberCut.nodes = nodesOf e.body := hs.nodes_memberCut hb
  have hga : SettledAlike (nodesOf e.body) (nodesOf e.beats) := by
    have hr : Recut (nodesOf e.body ++ []) (nodesOf (regap e.gap e.body) ++ []) := .intro e.gap hb he isTail_nil isTail_nil
    rw [append_nil, append_nil] at hr
    exact hr.alike
  refine SettledAlike.trans ?_ hga
  rw [← hn]
  have hc := h.cut
  rcases h.shape.memberCut_cases h.valid with ⟨m, hbe, hm, hme⟩ | ⟨-, ho⟩
  · obtain ⟨hp, hg⟩ := m.isGroup hm (hbe ▸ h.valid)
    rw [hme] at hc ⊢
    generalize e.chunk.memberCut = cut at hc
    cases hc with
    | @method _ b' _ c' hre =>
      have ha : (MemberCut.method b' c' []).nodes = c'.nodes := append_nil _
      rw [ha]
      exact hre.alike hp hg
  · rw [ho] at hc ⊢
    generalize e.chunk.memberCut = cut at hc
    cases hc with
    | other b b' ns => exact .refl _

lemma Chunk.Relaid.relined_ne_nil {c : Chunk} {e : Entry} (h : c.Relaid e) : c.memberCut.relined ≠ [] := by
  obtain ⟨x, hx, -⟩ := h.outline
  rcases h.shape.memberCut_cases h.valid with ⟨m, -, -, hm⟩ | ⟨-, ho⟩
  · simp [hm, MemberCut.relined, MethodCut.relined]
  · obtain ⟨xs, hb⟩ := head?_eq_some_iff.1 hx
    simp [ho, MemberCut.relined, MemberCut.nodes, hb, Beat.nodes]

lemma ClassCut.Relaid.alike {c c' : ClassCut} (h : c.Relaid c') (hbo : c.body.isGroup openBrace) :
    SettledAlike c.relined (c'.header ++ c'.body :: c'.trailing) := by
  obtain ⟨fr, tl, tl', hh, hh', ht, ht'⟩ := h.header
  obtain ⟨cs, es, behind, hm, hs, hb, his⟩ := h.members
  have hc : SettledAlike (c.members.flatMap MemberCut.relined) (nodesOf (es.flatMap Entry.beats)) := by
    rw [hm, flatMap_map, nodesOf, flatMap_assoc]
    refine SettledAlike.flatMap ?_
    have hv := hs.valid
    have hr := hs.relaid
    clear hm hs his
    induction hr with
    | nil => exact .nil
    | cons hce _ ih =>
      rw [flatMap_cons, forall_mem_append] at hv
      exact .cons (hce.alike hv.1) (ih hv.2)
  have he : (c.members.flatMap MemberCut.relined).isEmpty = c.members.isEmpty := by
    rw [hm]
    refine isEmpty_flatMap fun cut hcu => ?_
    obtain ⟨k, hk, rfl⟩ := mem_map.1 hcu
    obtain ⟨fr, more, rfl⟩ := append_of_mem hk
    obtain ⟨-, e, -, -, -, hr⟩ := exists_split_of_forall₂ hs.relaid.flip
    exact hr.relined_ne_nil
  have hin : SettledAlike (c.members.flatMap MemberCut.relined) c'.body.inside := by
    rw [his]
    have hbl : SettledAlike [] behind := .trivia (by simp) fun n hn => isTrivia_of_isBlank (hb.blank n hn)
    have ha := hc.append hbl
    rwa [append_nil] at ha
  rw [ClassCut.relined, h.leading, nil_append, hh, hh']
  have har : SettledAlike [c.body.around (broken (c.members.flatMap MemberCut.relined))] [c'.body] :=
    .around hbo h.braces hin (by rw [he, h.lines])
  refine SettledAlike.append ((SettledAlike.refl fr).append ?_) (har.append h.trailing.alike)
  exact .trivia (fun n hn => isTrivia_of_isBlank (ht.blank n hn))
    fun n hn => isTrivia_of_isBlank (ht'.blank n hn)

lemma Piece.Relaid.alike {p q : Piece} (h : p.Relaid q) : SettledAlike p.relined q.nodes := by
  cases h with
  | statement hp hq hn =>
    rw [Piece.relined, hp, hn]
    exact .refl _
  | @classDecl c c' hp hq hc =>
    obtain ⟨-, -, -, hb⟩ := Piece.classCut?_eq_some hp
    obtain ⟨hn, -⟩ := Piece.classCut?_eq_some hq
    rw [Piece.relined, hp, hn, hc.leading', nil_append]
    exact hc.alike hb

/-- **A script laid out anew calls for the trailing commas of the relined one.** -/
lemma alike_relined {ns ms : List Node}
    (h : Forall₂ Piece.Relaid (splitStatements false ns) (splitStatements false ms)) : SettledAlike (relined ns) ms :=
  (SettledAlike.flatMap (h.imp fun _ _ hp => hp.alike)).trans (alike_splitStatements ms)

end CustomElement.Script
