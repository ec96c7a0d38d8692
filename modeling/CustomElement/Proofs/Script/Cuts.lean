import CustomElement.Script.Module.Reader
import CustomElement.Proofs.Script.Layout

/-!
# Where the statement tree is cut

The parts make up the whole: the statements are all of a list of nodes but blanks (`scattered_splitStatements`), and
`cutMembers` keeps the parts of a class body that `splitMembers` leaves out (`flatMap_cutMembers`).
-/

namespace CustomElement.Script

open List Text

variable {d : Decorator} {n : Node} {header : Option Token} {p : Piece} {ns : List Node} {last : Option Token}

/-- The list consists of the pieces, with elements between them that are skipped. -/
inductive Scattered {α : Type} (skip : α → Bool) : List (List α) → List α → Prop
  | nil : Scattered skip [] []
  | skip {ps : List (List α)} {a : α} {as : List α} (h : skip a = true)
      (more : Scattered skip ps as) : Scattered skip ps (a :: as)
  | piece {ps : List (List α)} {as : List α} (p : List α) (more : Scattered skip ps as) : Scattered skip (p :: ps) (p ++ as)

lemma Scattered.exists_of_mem {α : Type} {skip : α → Bool} {ps : List (List α)} {as : List α}
    (h : Scattered skip ps as) {p : List α} (hp : p ∈ ps) : ∃ bs cs, as = bs ++ (p ++ cs) := by
  induction h with
  | nil => cases hp
  | @skip _ a _ _ _ ih =>
    obtain ⟨bs, cs, rfl⟩ := ih hp
    exact ⟨a :: bs, cs, rfl⟩
  | @piece _ as q _ ih =>
    rcases mem_cons.1 hp with rfl | hp
    · exact ⟨[], as, rfl⟩
    · obtain ⟨bs, cs, rfl⟩ := ih hp
      exact ⟨q ++ bs, cs, by simp⟩

lemma length_trimNodes_pos (hn : n.isBlank = false) : 0 < (trimNodes (n :: ns)).length := by
  rw [trimNodes, length_reverse, length_pos_iff]
  intro hni
  rw [dropWhile_eq_nil_iff] at hni
  rw [hni n (by simp)] at hn
  cases hn

lemma statementExtent_pos {lead : Option String} {leadAt : Nat} (hn : n.isBlank = false)
    {length : Nat} (h : statementExtent lead leadAt last header (n :: ns) = some length) : 0 < length := by
  have hm : ∀ {o : Option Nat}, o.map (· + 1) = some length → 0 < length := by
    intro o ho
    obtain ⟨k, -, rfl⟩ := map_eq_some_iff.1 ho
    exact succ_pos k
  cases n with
  | leaf t =>
    have hk : (t.kind == .blank) = false := hn
    simp only [statementExtent, hk] at h
    split at h
    · contradiction
    · split at h
      · exact hm h
      · split at h
        · cases h
          exact one_pos
        · exact hm h
  | group op ms c =>
    simp only [statementExtent] at h
    split at h
    · cases h
      exact one_pos
    · exact hm h

lemma pieceLength_pos (ns : List Node) (hn : n.isBlank = false) : 0 < pieceLength (n :: ns) := by
  have hs : 0 < statementLength (n :: ns) := by
    unfold statementLength
    dsimp only
    cases he : statementExtent _ _ _ _ (n :: ns) with
    | none => exact length_trimNodes_pos hn
    | some len => exact statementExtent_pos hn he
  unfold pieceLength
  dsimp only
  cases hg : guardLength (n :: ns) with
  | zero =>
    rw [drop_zero]
    omega
  | succ k => omega

lemma take_append_drop_pred {rest : List Node} {len : Nat} (h : 0 < len) :
    (n :: rest).take len ++ rest.drop (len - 1) = n :: rest := by
  obtain ⟨k, rfl⟩ := Nat.exists_eq_add_one.2 h
  rw [Nat.add_sub_cancel, take_succ_cons, cons_append, take_append_drop]

lemma scattered_splitStatements (b : Bool) (nodes : List Node) :
    Scattered Node.isBlank ((splitStatements b nodes).map Piece.nodes) nodes := by
  fun_induction splitStatements b nodes with
  | case1 => exact .nil
  | case2 b n r hn ih => exact .skip hn ih
  | case3 b n r hn length ih =>
    have hpo : 0 < length := pieceLength_pos r (by simpa using hn)
    have hp := Scattered.piece ((n :: r).take length) ih
    rwa [take_append_drop_pred hpo] at hp

lemma head?_splitStatements (b : Bool) (ns : List Node) :
    ∀ p ∈ splitStatements b ns, p.nodes.head?.any (fun n => !n.isBlank) := by
  fun_induction splitStatements b ns with
  | case1 => simp
  | case2 b n r hn ih => exact ih
  | case3 b n r hn length ih =>
    intro p hp
    rcases mem_cons.1 hp with rfl | hp
    · have hpo : 0 < length := pieceLength_pos r (by simpa using hn)
      simpa [head?_take, Nat.pos_iff_ne_zero.1 hpo] using hn
    · exact ih p hp

structure MethodCut where
  head : List Node
  params : Node
  between : List Node
  body : Node

def MethodCut.nodes (c : MethodCut) : List Node := c.head ++ c.params :: (c.between ++ [c.body])

/-- The method at the front, if the member there is one, and what follows its body. -/
def methodCut? (nodes : List Node) : Option (MethodCut × List Node) :=
  match memberEnd .outside false none none nodes with
  | .params n =>
    match nodes.drop n with
    | [] => none
    | params :: rest =>
      match signatureEnd rest with
      | .body m =>
        match rest.drop m with
        | [] => none
        | body :: after => some (⟨nodes.take n, params, rest.take m, body⟩, after)
      | _ => none
  | _ => none

lemma MemberEnd.after_eq_params {e : MemberEnd} {n : Nat} (h : e.after = .params n) : ∃ k, n = k + 1 ∧ e = .params k := by
  cases e with
  | params k => exact ⟨k, (MemberEnd.params.inj h).symm, rfl⟩
  | _ => cases h

lemma memberEnd_params {assigned : Bool} {n : Nat} (h : memberEnd d assigned last header ns = .params n) :
    ∃ params r, ns.drop n = params :: r ∧ params.isGroup "(" := by
  induction ns generalizing d assigned last header n with
  | nil => cases h
  | cons m ns ih =>
    have ha : ∀ {d : Decorator} {assigned : Bool} {last header : Option Token},
        (memberEnd d assigned last header ns).after = .params n →
        ∃ params r, (m :: ns).drop n = params :: r ∧ params.isGroup "(" := by
      intro d assigned last header hm
      obtain ⟨k, rfl, hk⟩ := MemberEnd.after_eq_params hm
      exact ih hk
    unfold memberEnd at h
    split at h
    · split at h
      · cases h
      · exact ha h
    · split at h
      · exact ha h
      · split at h
        · split at h
          · cases h
          · split at h
            · exact ha h
            · split at h <;> exact ha h
        · rename_i o ms c
          split at h
          · rename_i ho
            obtain rfl := MemberEnd.params.inj h
            rw [and_eq_true] at ho
            exact ⟨_, ns, rfl, ho.1⟩
          · split at h
            · cases h
            · exact ha h

lemma signatureEnd_body {n : Nat} (h : signatureEnd ns = .body n) :
    ∃ body r, ns.drop n = body :: r ∧ body.isGroup openBrace := by
  induction ns generalizing n with
  | nil => cases h
  | cons m ns ih =>
    rw [signatureEnd] at h
    split at h
    · rename_i hb
      obtain rfl := SignatureEnd.body.inj h
      exact ⟨m, ns, rfl, hb⟩
    · split at h
      · cases h
      · split at h
        · cases h
        · cases he : signatureEnd ns with
          | body k =>
            rw [he] at h
            obtain rfl : k + 1 = n := SignatureEnd.body.inj h
            exact ih he
          | _ => rw [he] at h; cases h

lemma readMember_eq (ns : List Node) : readMember ns = match methodCut? ns with
      | some (c, after) => (.method (methodOf c.head c.params.inside c.between c.body.inside),
          c.nodes.length + trailingComment after)
      | none => (.other (textOf (ns.take (readMember ns).2)), (readMember ns).2) := by
  unfold readMember methodCut?
  dsimp only
  cases memberEnd .outside false none none ns with
  | params n =>
    dsimp only
    cases hd : ns.drop n with
    | nil => rfl
    | cons params r =>
      dsimp only
      cases signatureEnd r with
      | body m =>
        dsimp only
        cases hd' : r.drop m with
        | nil => rfl
        | cons body after =>
          have hn : (ns.take n).length = n := by
            rw [length_take, Nat.min_eq_left]
            have := congrArg length hd
            simp only [length_drop, length_cons] at this
            omega
          have hm : (r.take m).length = m := by
            rw [length_take, Nat.min_eq_left]
            have := congrArg length hd'
            simp only [length_drop, length_cons] at this
            omega
          have ha : ns.drop (n + 1 + m + 1) = after := by
            rw [add_assoc n, add_assoc n, ← drop_drop, hd, add_comm 1 m, add_assoc,
              add_comm 1 1, ← add_assoc, drop_succ_cons, ← drop_drop, hd']
            rfl
          simp only [MethodCut.nodes, length_append, length_cons, length_nil, hn, hm, ha]
          congr 1
          omega
      | _ => rfl
  | _ => rfl

lemma methodCut?_eq_some {aft : List Node} {c : MethodCut} (h : methodCut? ns = some (c, aft)) :
    ns = c.nodes ++ aft ∧ c.params.isGroup "(" ∧ c.body.isGroup openBrace := by
  unfold methodCut? at h
  split at h
  · rename_i n he
    obtain ⟨params, r, hd, hp⟩ := memberEnd_params he
    rw [hd] at h
    dsimp only at h
    split at h
    · rename_i m hs
      obtain ⟨body, aft', hd', hb⟩ := signatureEnd_body hs
      rw [hd'] at h
      obtain ⟨rfl, rfl⟩ := Prod.mk.inj (some.inj h)
      refine ⟨?_, hp, hb⟩
      have hn := take_append_drop n ns
      have hr := take_append_drop m r
      rw [hd, ← hr, hd'] at hn
      simpa [MethodCut.nodes] using hn.symm
    · cases h
  · cases h

def MemberEnd.length? : MemberEnd → Option Nat
  | .broken n => some n
  | .closed n => some n
  | .params _ => none
  | .runsOn => none

lemma MemberEnd.length?_after_pos {e : MemberEnd} {k : Nat} (h : e.after.length? = some k) : 0 < k := by
  cases e with
  | broken n | closed n =>
    cases h
    exact succ_pos n
  | _ => cases h

lemma memberEnd_pos {assigned : Bool} (hn : n.isBlank = false) {k : Nat}
    (h : (memberEnd d assigned last header (n :: ns)).length? = some k) : 0 < k := by
  have ho : (MemberEnd.closed 1).length? = some k → 0 < k := by
    intro h
    cases h
    exact one_pos
  unfold memberEnd at h
  simp only [hn, Bool.false_and, false_eq_true, if_false] at h
  split at h
  · exact MemberEnd.length?_after_pos h
  · split at h
    · exact MemberEnd.length?_after_pos h
    · split at h
      · split at h
        · exact ho h
        · split at h
          · exact MemberEnd.length?_after_pos h
          · split at h <;> exact MemberEnd.length?_after_pos h
      · split at h
        · cases h
        · split at h
          · exact ho h
          · exact MemberEnd.length?_after_pos h

lemma length_readMember_pos (ns : List Node) (hn : n.isBlank = false) : 0 < (readMember (n :: ns)).2 := by
  unfold readMember
  dsimp only
  cases he : memberEnd .outside false none none (n :: ns) with
  | broken k => exact memberEnd_pos hn (by rw [he]; rfl)
  | closed k => exact Nat.add_pos_left (memberEnd_pos hn (by rw [he]; rfl)) _
  | runsOn => exact length_trimNodes_pos hn
  | params k =>
    dsimp only
    split
    · exact succ_pos _
    · split
      · exact Nat.add_pos_left (succ_pos k) _
      · exact Nat.add_pos_left (Nat.add_pos_left (succ_pos k) _) _
      · exact length_trimNodes_pos hn
      · split
        · exact succ_pos _
        · exact Nat.add_pos_left (succ_pos _) _

inductive MemberCut where
  | gap (node : Node)
  /-- A semicolon that stands alone. -/
  | lone (semicolon : Node)
  | other (blankBefore : Bool) (nodes : List Node)
  | method (blankBefore : Bool) (cut : MethodCut) (behind : List Node)

namespace MemberCut

def nodes : MemberCut → List Node
  | .gap node => [node]
  | .lone semicolon => [semicolon]
  | .other _ nodes => nodes
  | .method _ cut behind => cut.nodes ++ behind

def member? : MemberCut → Option Member
  | .gap _ => none
  | .lone _ => none
  | .other blankBefore nodes => some ⟨blankBefore, .other (textOf nodes)⟩
  | .method blankBefore c _ =>
    some ⟨blankBefore, .method (methodOf c.head c.params.inside c.between c.body.inside)⟩

end MemberCut

def cutMember (blank : Bool) (nodes : List Node) : MemberCut :=
  match methodCut? nodes with
  | some (cut, after) => .method blank cut (after.take (trailingComment after))
  | none => .other blank (nodes.take (readMember nodes).2)

lemma member?_cutMember (b : Bool) (ns : List Node) : (cutMember b ns).member? = some ⟨b, (readMember ns).1⟩ := by
  have hr := readMember_eq ns
  unfold cutMember
  cases hc : methodCut? ns with
  | none | some cut =>
    rw [hc] at hr
    rw [hr]
    rfl

lemma nodes_cutMember (b : Bool) (ns : List Node) : (cutMember b ns).nodes = ns.take (readMember ns).2 := by
  have hr := readMember_eq ns
  unfold cutMember
  cases hc : methodCut? ns with
  | none => rfl
  | some cut =>
    obtain ⟨c, after⟩ := cut
    rw [hc] at hr
    obtain ⟨hn, -, -⟩ := methodCut?_eq_some hc
    have hl : (readMember ns).2 = c.nodes.length + trailingComment after := by rw [hr]
    rw [hl, hn, take_length_add_append]
    rfl

def cutMembers (blank : Bool) (nodes : List Node) : List MemberCut :=
  match nodes with
  | [] => []
  | n :: rest =>
    if n.isBlank then .gap n :: cutMembers (blank || 2 ≤ n.first.newlines) rest
    else if n.isLeaf fun t => t.isPunct ";" then .lone n :: cutMembers blank rest
    else
      cutMember blank (n :: rest) :: cutMembers false (rest.drop ((readMember (n :: rest)).2 - 1))
termination_by nodes.length

lemma splitMembers_eq (b : Bool) (ns : List Node) : splitMembers b ns = (cutMembers b ns).filterMap MemberCut.member? := by
  fun_induction splitMembers b ns with
  | case1 => rw [cutMembers]; rfl
  | case2 b n r hn ih =>
    rw [cutMembers, if_pos hn, filterMap_cons_none rfl, ih]
  | case3 b n r hn hl ih =>
    rw [cutMembers, if_neg hn, if_pos hl, filterMap_cons_none rfl, ih]
  | case4 b n r hn hl ct len hr ih =>
    rw [cutMembers, if_neg hn, if_neg hl, filterMap_cons_some (member?_cutMember _ _), hr, ih]

lemma flatMap_cutMembers (b : Bool) (nodes : List Node) : (cutMembers b nodes).flatMap MemberCut.nodes = nodes := by
  fun_induction cutMembers b nodes with
  | case1 => rfl
  | case2 b n r hn ih | case3 b n r hn hl ih => rw [flatMap_cons, ih]; rfl
  | case4 b n r hn hl ih =>
    have hp := length_readMember_pos r (by simpa using hn)
    rw [flatMap_cons, ih, nodes_cutMember, take_append_drop_pred hp]

lemma exists_append_of_mem_cutMembers {b : Bool} {cut : MemberCut} (h : cut ∈ cutMembers b ns) :
    ∃ pre aft, ns = pre ++ (cut.nodes ++ aft) := by
  obtain ⟨pre, aft, hs⟩ := append_of_mem h
  have hn := flatMap_cutMembers b ns
  rw [hs, flatMap_append, flatMap_cons] at hn
  exact ⟨_, _, hn.symm⟩

def MemberCut.Shaped : MemberCut → Prop
  | .gap node => node.isBlank = true
  | .lone semicolon => (semicolon.isLeaf fun t => t.isPunct ";") = true
  | .other _ nodes => nodes.head?.any (fun n => !n.isBlank) = true
  | .method _ cut behind => cut.nodes.head?.any (fun n => !n.isBlank) = true ∧
      cut.params.isGroup "(" = true ∧ cut.body.isGroup openBrace = true ∧ ∀ n ∈ behind, n.isTrivia = true

lemma isTrivia_of_isLeaf {p : Token → Bool} (hp : ∀ t, p t → t.isTrivia) (h : n.isLeaf p) : n.isTrivia := by
  cases n with
  | leaf t => exact hp t h
  | group o ms c => cases h

lemma isTrivia_of_mem_trailingComment (ns : List Node) : ∀ n ∈ ns.take (trailingComment ns), n.isTrivia := by
  have hc : ∀ t : Token, (t.isComment && !t.hasNewline) → t.isTrivia := by
    intro t ht
    simp only [Token.isComment, and_eq_true, or_eq_true] at ht
    simp only [Token.isTrivia, or_eq_true]
    tauto
  have hbl : ∀ t : Token, (t.kind == .blank && !t.hasNewline) → t.isTrivia := by
    intro t ht
    simp [Token.isTrivia, (and_eq_true _ _ ▸ ht).1]
  unfold trailingComment
  dsimp only
  split
  · split
    · rename_i a b r ha
      split
      · rename_i hb
        simp [isTrivia_of_isLeaf hbl ha, isTrivia_of_isLeaf hc hb]
      · simp
    · split
      · rename_i ha
        simp [isTrivia_of_isLeaf hc ha]
      · simp
  · split
    · rename_i ha
      simp [isTrivia_of_isLeaf hc ha]
    · simp
  · simp

lemma shaped_cutMember (b : Bool) (ns : List Node) (hn : n.isBlank = false) : (cutMember b (n :: ns)).Shaped := by
  unfold cutMember
  cases hc : methodCut? (n :: ns) with
  | none =>
    have hpo := length_readMember_pos ns hn
    simp only [MemberCut.Shaped]
    rw [head?_take, if_neg (Nat.pos_iff_ne_zero.1 hpo), head?_cons, any_some, hn]
    rfl
  | some cut =>
    obtain ⟨c, aft⟩ := cut
    obtain ⟨hno, hp, hb⟩ := methodCut?_eq_some hc
    refine ⟨?_, hp, hb, isTrivia_of_mem_trailingComment aft⟩
    have hh : c.nodes.head? = some n := by
      have hne : c.nodes ≠ [] := by simp [MethodCut.nodes]
      have hh := congrArg head? hno
      rw [head?_append_of_ne_nil _ hne] at hh
      exact hh.symm
    rw [hh, any_some, hn]
    rfl

lemma shaped_cutMembers (b : Bool) (ns : List Node) : ∀ cut ∈ cutMembers b ns, cut.Shaped := by
  fun_induction cutMembers b ns with
  | case1 => simp
  | case2 b n r hn ih => exact forall_mem_cons.2 ⟨hn, ih⟩
  | case3 b n r hn hl ih => exact forall_mem_cons.2 ⟨hl, ih⟩
  | case4 b n r hn hl ih =>
    exact forall_mem_cons.2 ⟨shaped_cutMember b r (by simpa using hn), ih⟩

structure ClassCut where
  leading : List Node
  header : List Node
  body : Node
  trailing : List Node

/-- The position of the body of a class declaration whose keyword stands at `leadAt`. -/
def Piece.bodyAt (p : Piece) (leadAt : Nat) : Nat :=
  let start := p.nodes.length - leadAt
  start + 1 + ((p.nodes.drop (start + 1)).takeWhile fun n => !n.isGroup openBrace).length

def Piece.cutAt (p : Piece) (bodyAt : Nat) (body : Node) : ClassCut :=
  let leading := p.nodes.takeWhile Node.isTrivia
  ⟨leading, (p.nodes.take bodyAt).drop leading.length, body, p.nodes.drop (bodyAt + 1)⟩

def Piece.classCut? (p : Piece) : Option ClassCut :=
  match leadWord .outside p.nodes with
  | none => none
  | some (word, leadAt) =>
    if word == "class" then (p.nodes[p.bodyAt leadAt]?).map (p.cutAt (p.bodyAt leadAt)) else none

lemma leadWord_eq_some {w : String} {leadAt : Nat} (h : leadWord d ns = some (w, leadAt)) :
    ∃ pre n post, ns = pre ++ n :: post ∧ leadAt = post.length + 1 ∧ n.isTrivia = false := by
  induction ns generalizing d with
  | nil => cases h
  | cons n ns ih =>
    have hmo : ∀ {d : Decorator}, leadWord d ns = some (w, leadAt) →
        ∃ pre m post, n :: ns = pre ++ m :: post ∧ leadAt = post.length + 1 ∧ m.isTrivia = false := by
      intro d hl
      obtain ⟨pre, m, post, rfl, ha, hm⟩ := ih hl
      exact ⟨n :: pre, m, post, rfl, ha, hm⟩
    rw [leadWord] at h
    split at h
    · exact hmo h
    · rename_i ht
      split at h
      · exact hmo h
      · split at h
        · exact hmo h
        · split at h
          · exact hmo h
          · split at h
            · obtain ⟨-, rfl⟩ := Prod.mk.inj (some.inj h)
              exact ⟨[], n, ns, rfl, rfl, by simpa using ht⟩
            · cases h

lemma Piece.item_of_classCut {c : ClassCut} (h : p.classCut? = some c) :
    ∃ d : ClassDecl, p.item = .classDecl d ∧ d.blankBefore = p.blankBefore ∧
      d.leading = trim (textOf c.leading) ∧ d.header = trimEnd (textOf c.header) ∧
      d.members = splitMembers false c.body.inside ∧ d.trailing = trim (textOf c.trailing) := by
  unfold Piece.classCut? at h
  split at h
  · cases h
  · rename_i w leadAt hl
    split at h
    · rename_i hw
      obtain ⟨body, hb, rfl⟩ := map_eq_some_iff.1 h
      rw [Piece.item, hl]
      simp only [any_some, hw, if_true]
      unfold readClass
      rw [hl]
      have hb' : p.nodes[p.nodes.length - leadAt + 1 + ((p.nodes.drop (p.nodes.length - leadAt + 1)).takeWhile
          fun n => !n.isGroup openBrace).length]? = some body := hb
      simp only [bind_eq_bind, bind_some, hb']
      exact ⟨_, rfl, rfl, rfl, rfl, rfl, rfl⟩
    · cases h

lemma Piece.item_of_classCut_eq_none (h : p.classCut? = none) : p.item = .statement p.statement := by
  unfold Piece.classCut? at h
  unfold Piece.item
  split at h
  · rename_i hl
    simp [hl]
  · rename_i w leadAt hl
    split at h
    · rename_i hw
      have hb : p.nodes[p.nodes.length - leadAt + 1 + ((p.nodes.drop (p.nodes.length - leadAt + 1)).takeWhile
          fun n => !n.isGroup openBrace).length]? = none := Option.map_eq_none_iff.1 h
      have hc : readClass p = none := by
        unfold readClass
        rw [hl]
        simp only [bind_eq_bind, bind_some, hb, Option.bind_none]
      simp [hl, hc]
    · rename_i hw
      simp [hl, hw]

lemma cutAt_spec {fr rest : List Node} {body : Node} (hno : p.nodes = fr ++ body :: rest)
    (hme : n ∈ fr) (hn : n.isTrivia = false) (hb : body.isGroup openBrace) :
    p.nodes = (p.cutAt fr.length body).leading ++
        ((p.cutAt fr.length body).header ++ body :: (p.cutAt fr.length body).trailing) ∧
      (∀ n ∈ (p.cutAt fr.length body).leading, n.isTrivia) ∧
      (p.cutAt fr.length body).header.head?.any (fun n => !n.isTrivia) ∧ body.isGroup openBrace := by
  have hne : fr.dropWhile Node.isTrivia ≠ [] := by
    intro hni
    rw [dropWhile_eq_nil_iff] at hni
    rw [hni n hme] at hn
    cases hn
  obtain ⟨m, tail, ht⟩ := exists_cons_of_ne_nil hne
  have hm := head?_dropWhile_any Node.isTrivia fr
  rw [ht] at hm
  have hf := takeWhile_append_dropWhile (p := Node.isTrivia) (l := fr)
  have hl : p.nodes.takeWhile Node.isTrivia = fr.takeWhile Node.isTrivia := by
    have hle := congrArg length hf
    rw [length_append, ht, length_cons] at hle
    rw [hno, takeWhile_append, if_neg (by omega)]
  have hh : (p.nodes.take fr.length).drop (fr.takeWhile Node.isTrivia).length = m :: tail := by
    rw [hno, take_left, ← ht]
    nth_rewrite 2 [← hf]
    rw [drop_left]
  have htr : p.nodes.drop (fr.length + 1) = rest := by
    rw [hno, ← drop_drop, drop_left]
    rfl
  simp only [Piece.cutAt, hl, hh, htr]
  refine ⟨?_, fun n hn => mem_takeWhile_imp hn, by simpa using hm, hb⟩
  rw [← ht, ← append_assoc, hf, hno]

lemma Piece.classCut?_eq_some {c : ClassCut} (h : p.classCut? = some c) :
    p.nodes = c.leading ++ (c.header ++ c.body :: c.trailing) ∧
      (∀ n ∈ c.leading, n.isTrivia) ∧ c.header.head?.any (fun n => !n.isTrivia) ∧ c.body.isGroup openBrace := by
  unfold Piece.classCut? at h
  split at h
  · cases h
  · rename_i w leadAt hl
    split at h
    · obtain ⟨body, hb, rfl⟩ := map_eq_some_iff.1 h
      obtain ⟨pre, n, post, hno, rfl, hn⟩ := leadWord_eq_some hl
      have hsa : p.nodes.length - (post.length + 1) = pre.length := by
        rw [hno, length_append, length_cons]
        omega
      have hp : p.nodes.drop (pre.length + 1) = post := by
        rw [hno, ← drop_drop, drop_left]
        rfl
      have ha : p.bodyAt (post.length + 1) = (pre ++ n :: post.takeWhile fun n => !n.isGroup openBrace).length := by
        simp only [Piece.bodyAt, hsa, hp, length_append, length_cons]
        omega
      have hf : n ∈ pre ++ n :: post.takeWhile fun n => !n.isGroup openBrace := by simp
      have hs : p.nodes = (pre ++ n :: post.takeWhile fun n => !n.isGroup openBrace) ++
          post.dropWhile fun n => !n.isGroup openBrace := by
        rw [append_assoc, cons_append, takeWhile_append_dropWhile, hno]
      have hst := head?_dropWhile_any (fun n : Node => !n.isGroup openBrace) post
      rw [ha]
      rw [ha] at hb
      generalize pre ++ n :: post.takeWhile (fun n => !n.isGroup openBrace) = fr at hs hb hf ⊢
      generalize post.dropWhile (fun n => !n.isGroup openBrace) = r at hs hst
      rw [hs, getElem?_append_right (le_refl _), Nat.sub_self] at hb
      obtain ⟨r, rfl⟩ : ∃ more, r = body :: more := by
        cases r with
        | nil => cases hb
        | cons m r =>
          cases hb
          exact ⟨r, rfl⟩
      exact cutAt_spec hs hf hn (by simpa using hst)
    · cases h

end CustomElement.Script
