import CustomElement.Proofs.Script.Stretches

/-!
# Statements beat by beat

In a script without comments every node that carries code has at most one blank before it: a `Beat`. Where statements
end is decided beat by beat (`extent`, `pieceBeats`), so a statement ends in the same place if line breaks are taken
out within it, or put in behind it (`pieceBeats_append`).
-/

namespace CustomElement.Script

open List

variable {x : Beat} {atLead : Bool} {k leadAt wait : Nat} {n : Node} {lead : Option String}
  {more : Option Token → Option Token → Option Nat} {more' : Option Token → Option Token → Option Nat}

/-- A node that carries code, and the blank before it. -/
structure Beat where
  gap : Option Token
  node : Node

namespace Beat

def nodes (x : Beat) : List Node := (x.gap.map Node.leaf).toList ++ [x.node]

def breaks (x : Beat) : Bool := x.gap.any Token.hasNewline

def spaced (x : Beat) : Bool := x.gap.any fun t => 2 ≤ t.newlines

def flush (x : Beat) : Beat := ⟨none, x.node⟩

structure Valid (x : Beat) : Prop where
  gap : ∀ t ∈ x.gap, t.kind = .blank
  node : x.node.isTrivia = false

lemma Valid.flush (h : x.Valid) : x.flush.Valid := ⟨by simp [Beat.flush], h.node⟩

end Beat

def nodesOf (xs : List Beat) : List Node := xs.flatMap Beat.nodes

@[simp] lemma nodesOf_nil : nodesOf [] = [] := rfl

@[simp] lemma nodesOf_cons (x : Beat) (xs : List Beat) : nodesOf (x :: xs) = x.nodes ++ nodesOf xs := rfl

@[simp] lemma nodesOf_append (xs ys : List Beat) : nodesOf (xs ++ ys) = nodesOf xs ++ nodesOf ys :=
  flatMap_append

lemma length_nodesOf_drop_le (xs : List Beat) (n : Nat) : (nodesOf (xs.drop n)).length ≤ (nodesOf xs).length := by
  conv_rhs => rw [← take_append_drop n xs, nodesOf_append, length_append]
  omega

lemma length_nodes_pos (x : Beat) : 0 < x.nodes.length := by simp [Beat.nodes]

structure IsTail (tail : List Node) : Prop where
  blank : ∀ n ∈ tail, n.isBlank = true
  short : tail.length ≤ 1

lemma IsTail.eq_nil_or_leaf {tail : List Node} (h : IsTail tail) : tail = [] ∨ ∃ t : Token, t.kind = .blank ∧ tail = [.leaf t] := by
  obtain ⟨hb, hs⟩ := h
  match tail, hs with
  | [], _ => exact .inl rfl
  | [.group o ms cl], _ => cases hb (.group o ms cl) mem_cons_self
  | [.leaf t], _ => exact .inr ⟨t, by simpa [Node.isBlank, Node.isLeaf] using hb (.leaf t) mem_cons_self, rfl⟩

def nextBeat (xs : List Beat) : Option Token := xs.head?.map fun x => x.node.first

section Nodes

variable {xs : List Beat} {tail : List Node}

lemma Node.isTrivia_of_isBlank (h : n.isBlank) : n.isTrivia := by
  cases n with
  | leaf t => simp_all [Node.isBlank, Node.isLeaf, Node.isTrivia, Token.isTrivia]
  | group o ms cl => cases h

export Node (isTrivia_of_isBlank)

lemma isTrivia_gap (h : x.Valid) {t : Token} (ht : x.gap = some t) : t.isTrivia := by
  simp [Token.isTrivia, h.gap t ht]

lemma nextCode_nodesOf (hxs : ∀ x ∈ xs, x.Valid) (hta : IsTail tail) : nextCode (nodesOf xs ++ tail) = nextBeat xs := by
  cases xs with
  | nil =>
    have hno : tail.find? (fun n => !n.isTrivia) = none := by
      rw [find?_eq_none]
      intro n hn
      simp [isTrivia_of_isBlank (hta.blank n hn)]
    simp [nextCode, nextBeat, hno]
  | cons x xs =>
    obtain ⟨hx, -⟩ := forall_mem_cons.1 hxs
    cases hg : x.gap with
    | none => simp [nextCode, nextBeat, Beat.nodes, hg, hx.node]
    | some t =>
      have ht : (Node.leaf t).isTrivia := isTrivia_gap hx hg
      simp [nextCode, nextBeat, Beat.nodes, hg, hx.node, ht]

/-- The first word of a statement after `export`, `default`, `async` and decorators, or its opening brace,
and the number of beats before it. -/
def leadIndex (d : Decorator) : List Beat → Option (String × Nat)
  | [] => none
  | x :: xs =>
    let further (d : Decorator) := (leadIndex d xs).map fun lead => (lead.1, lead.2 + 1)
    match d.pass x.node with
    | some d => further d
    | none =>
      if x.node.isLeaf fun t => t.isPunct "@" then further .name
      else if x.node.isLeaf fun t => t.kind == .word && ["export", "default", "async"].contains t.text then
        further .outside
      else if x.node.isGroup openBrace || x.node.isLeaf fun t => t.kind == .word then
        some (x.node.first.text, 0)
      else none

lemma leadWord_blank {t : Token} (ht : t.kind = .blank) (d : Decorator) (nodes : List Node) :
    leadWord d (.leaf t :: nodes) = leadWord d nodes := by
  rw [leadWord, if_pos]
  simp [Node.isTrivia, Token.isTrivia, ht]

lemma leadWord_nodesOf (hxs : ∀ x ∈ xs, x.Valid) (ht : IsTail tail) (d : Decorator) :
    leadWord d (nodesOf xs ++ tail) = (leadIndex d xs).map fun lead =>
      (lead.1, (nodesOf (xs.drop (lead.2 + 1)) ++ tail).length + 1) := by
  induction xs generalizing d with
  | nil =>
    obtain ⟨hb, hs⟩ := ht
    match tail, hs with
    | [], _ => rfl
    | [n], _ =>
      have hn : n.isTrivia := isTrivia_of_isBlank (hb n (by simp))
      simp [leadWord, hn, leadIndex]
  | cons x xs ih =>
    obtain ⟨hx, hxs⟩ := forall_mem_cons.1 hxs
    have hsk : leadWord d (nodesOf (x :: xs) ++ tail) = leadWord d (x.node :: (nodesOf xs ++ tail)) := by
      cases hg : x.gap with
      | none => simp [Beat.nodes, hg]
      | some t =>
        simp only [nodesOf_cons, Beat.nodes, hg, map_some, Option.toList_some, cons_append]
        exact leadWord_blank (hx.gap t hg) d _
    have hf : ∀ d, leadWord d (nodesOf xs ++ tail) = ((leadIndex d xs).map fun lead => (lead.1, lead.2 + 1)).map fun lead =>
          (lead.1, (nodesOf ((x :: xs).drop (lead.2 + 1)) ++ tail).length + 1) := by
      intro d
      rw [ih hxs d, Option.map_map]
      rfl
    rw [hsk, leadWord, if_neg (by simp [hx.node]), leadIndex]
    cases hp : d.pass x.node with
    | some d' => simp only [hf]
    | none =>
      simp only
      split
      · exact hf _
      · split
        · exact hf _
        · split
          · simp
          · rfl

/-- Passing one node of a statement: it ends behind a semicolon or the block that completes it. `atLead` says that the
node is the first word; `more` gives the rest, from the token before and the one before the group that it closes. -/
def passNode (lead : Option String) (atLead : Bool) (last next : Option Token)
    (more : Option Token → Option Token → Option Nat) : Node → Option Nat
  | .leaf t => if t.isPunct ";" then some 1 else (more (some t) none).map (· + 1)
  | .group opener _ closer =>
    if opener.isPunct openBrace && lead.any blockWords.contains && (atLead || blockFollows last) &&
        !continuesBlock lead next then some 1
    else (more (some closer) last).map (· + 1)

/-- The number of beats of the statement at the front, if it ends before the last of them. `lead` is its first word, which
is passed after `wait` beats; `last` and `header` are as for `statementExtent`. -/
def extent (lead : Option String) (wait : Nat) (last header : Option Token) : List Beat → Option Nat
  | [] => none
  | x :: xs =>
    if x.breaks && wait == 0 && breakEnds last header (some x.node.first) then some 0
    else passNode lead (wait == 1) last (nextBeat xs) (fun last header => extent lead (wait - 1) last header xs) x.node

lemma map_passNode {last next : Option Token} {f g : Nat → Nat} (ho : f 1 = g 1)
    (hm : ∀ last header, (more last header).map (fun k => f (k + 1)) = (more' last header).map fun k => g (k + 1))
    (n : Node) : (passNode lead atLead last next more n).map f = (passNode lead atLead last next more' n).map g := by
  have hma : ∀ last header, ((more last header).map (· + 1)).map f = ((more' last header).map (· + 1)).map g := by
    intro last header
    rw [Option.map_map, Option.map_map]
    exact hm last header
  cases n with
  | leaf t | group o ms cl =>
    simp only [passNode]
    split
    · simp [ho]
    · exact hma _ _

lemma statementExtent_tail (hta : IsTail tail) (lead : Option String) (leadAt : Nat)
    (last header : Option Token) : statementExtent lead leadAt last header tail = none := by
  obtain rfl | ⟨t, ht, rfl⟩ := hta.eq_nil_or_leaf
  · rfl
  · have hn : breakEnds last header (nextCode []) = false := by cases last <;> rfl
    simp [statementExtent, ht, hn]

lemma statementExtent_node {ns : List Node} (hn : n.isTrivia = false) (lead : Option String) (leadAt : Nat)
    (last header : Option Token) :
    statementExtent lead leadAt last header (n :: ns) = passNode lead (ns.length + 1 == leadAt) last (nextCode ns)
        (fun last header => statementExtent lead leadAt last header ns) n := by
  cases n with
  | group o ms cl => rfl
  | leaf t =>
    simp only [Node.isTrivia, Token.isTrivia, or_eq_false_iff] at hn
    obtain ⟨⟨hb, hl⟩, hbl⟩ := hn
    rw [statementExtent]
    simp only [hb, Token.isComment, hl, hbl, Bool.or_false, false_eq_true, if_false, passNode]

def LeadAt (tail : List Node) (xs : List Beat) (leadAt wait : Nat) : Prop :=
  wait = 0 ∧ (nodesOf xs ++ tail).length < leadAt ∨
    0 < wait ∧ wait ≤ xs.length ∧ leadAt = (nodesOf (xs.drop wait) ++ tail).length + 1

section

variable (h : LeadAt tail (x :: xs) leadAt wait)

include h

lemma LeadAt.rest : LeadAt tail xs leadAt (wait - 1) := by
  have hp := length_nodes_pos x
  rcases h with ⟨rfl, hl⟩ | ⟨hp, hle, ha⟩
  · refine .inl ⟨rfl, ?_⟩
    simp only [nodesOf_cons, length_append] at hl ⊢
    omega
  · obtain ⟨w, rfl⟩ : ∃ w, wait = w + 1 := ⟨wait - 1, by omega⟩
    rw [drop_succ_cons] at ha
    cases w with
    | zero => exact .inl ⟨rfl, by rw [ha, drop_zero]; omega⟩
    | succ w => exact .inr ⟨by omega, by simpa using hle, ha⟩

lemma LeadAt.lt_iff (hg : x.gap ≠ none) : (x.node :: (nodesOf xs ++ tail)).length + 1 < leadAt ↔ wait = 0 := by
  have hl : (nodesOf (x :: xs) ++ tail).length = (x.node :: (nodesOf xs ++ tail)).length + 1 := by
    obtain ⟨t, ht⟩ := Option.ne_none_iff_exists'.1 hg
    simp [Beat.nodes, ht]
  rcases h with ⟨rfl, hlt⟩ | ⟨hp, -, ha⟩
  · rw [hl] at hlt
    simpa using hlt
  · obtain ⟨w, rfl⟩ : ∃ w, wait = w + 1 := ⟨wait - 1, by omega⟩
    have hle := length_nodesOf_drop_le xs w
    rw [drop_succ_cons] at ha
    simp only [ha, length_cons, length_append]
    omega

lemma LeadAt.eq_iff : (nodesOf xs ++ tail).length + 1 = leadAt ↔ wait = 1 := by
  rcases h with ⟨rfl, hl⟩ | ⟨hp, hle, ha⟩
  · have hp := length_nodes_pos x
    simp only [nodesOf_cons, length_append] at hl ⊢
    omega
  · obtain ⟨w, rfl⟩ : ∃ w, wait = w + 1 := ⟨wait - 1, by omega⟩
    rw [drop_succ_cons] at ha
    cases w with
    | zero => simp [ha]
    | succ w =>
      cases xs with
      | nil => simp at hle
      | cons y ys =>
        have hd := length_nodesOf_drop_le ys w
        have hp := length_nodes_pos y
        simp only [ha, nodesOf_cons, drop_succ_cons, length_append]
        omega

end

lemma statementExtent_nodesOf (hxs : ∀ x ∈ xs, x.Valid) (ht : IsTail tail) (hl : LeadAt tail xs leadAt wait)
    (last header : Option Token) : statementExtent lead leadAt last header (nodesOf xs ++ tail) =
      (extent lead wait last header xs).map fun k => (nodesOf (xs.take k)).length := by
  induction xs generalizing wait last header with
  | nil => exact statementExtent_tail ht lead leadAt last header
  | cons x xs ih =>
    obtain ⟨hx, hxs⟩ := forall_mem_cons.1 hxs
    have hne := nextCode_nodesOf hxs ht
    have hp := length_nodes_pos x
    have ha : ((nodesOf xs ++ tail).length + 1 == leadAt) = (wait == 1) := by
      rw [Bool.eq_iff_iff, beq_iff_eq, beq_iff_eq]
      exact hl.eq_iff
    -- The node, once it is known that no break ends the statement before it.
    have hno : (statementExtent lead leadAt last header (x.node :: (nodesOf xs ++ tail))).map
          (· + (x.nodes.length - 1)) =
        (passNode lead (wait == 1) last (nextBeat xs) (fun last header => extent lead (wait - 1) last header xs) x.node).map
            fun k => (nodesOf ((x :: xs).take k)).length := by
      rw [statementExtent_node hx.node, nextCode_nodesOf hxs ht, ha]
      refine map_passNode (by simp; omega) (fun last header => ?_) x.node
      rw [ih hxs hl.rest last header, Option.map_map]
      congr 1
      funext k
      simp only [Function.comp_apply, take_succ_cons, nodesOf_cons, length_append]
      omega
    rw [extent]
    cases hg : x.gap with
    | none =>
      have hb : x.breaks = false := by simp [Beat.breaks, hg]
      have hn : x.nodes = [x.node] := by simp [Beat.nodes, hg]
      rw [hb, Bool.false_and, Bool.false_and, if_neg (by simp), ← hno, nodesOf_cons, hn]
      simp
    | some t =>
      have hk : (t.kind == .blank) := by simp [hx.gap t hg]
      have hn : x.nodes = [.leaf t, x.node] := by simp [Beat.nodes, hg]
      have hb : x.breaks = t.hasNewline := by simp [Beat.breaks, hg]
      have hnextCode : nextCode (x.node :: (nodesOf xs ++ tail)) = some x.node.first := by
        simp [nextCode, hx.node]
      have hlt : decide ((x.node :: (nodesOf xs ++ tail)).length + 1 < leadAt) = (wait == 0) := by
        rw [Bool.eq_iff_iff, decide_eq_true_iff, beq_iff_eq]
        exact hl.lt_iff (by simp [hg])
      have hc : nodesOf (x :: xs) ++ tail = .leaf t :: x.node :: (nodesOf xs ++ tail) := by simp [hn]
      rw [hc, statementExtent]
      simp only [hk, if_true, hnextCode, hlt, hb]
      split
      · rfl
      · rw [← hno, hn]
        rfl

def statementBeats (xs : List Beat) : Nat :=
  let lead := leadIndex .outside xs
  (extent (lead.map Prod.fst) ((lead.map Prod.snd).getD 0 + 1) none none xs).getD xs.length

lemma leadIndex_lt {d : Decorator} {w : String} {i : Nat} (h : leadIndex d xs = some (w, i)) : i < xs.length := by
  induction xs generalizing d i with
  | nil => cases h
  | cons x xs ih =>
    have hf : ∀ d, ((leadIndex d xs).map fun lead => (lead.1, lead.2 + 1)) = some (w, i) → i < (x :: xs).length := by
      intro d hd
      obtain ⟨⟨w', j⟩, hj, heq⟩ := map_eq_some_iff.1 hd
      obtain ⟨rfl, rfl⟩ := Prod.mk.inj heq
      simpa using ih hj
    rw [leadIndex] at h
    cases hp : d.pass x.node with
    | some d' => exact hf d' (by simpa only [hp] using h)
    | none =>
      simp only [hp] at h
      split at h
      · exact hf _ h
      · split at h
        · exact hf _ h
        · split at h
          · obtain rfl : 0 = i := by simpa using congrArg (Option.map Prod.snd) h
            simp
          · cases h

lemma trimNodes_nodesOf (hxs : ∀ x ∈ xs, x.Valid) (ht : IsTail tail) : trimNodes (nodesOf xs ++ tail) = nodesOf xs := by
  have hd : (nodesOf xs).reverse.dropWhile Node.isBlank = (nodesOf xs).reverse := by
    rcases eq_nil_or_concat xs with rfl | ⟨fr, x, rfl⟩
    · rfl
    · have hx := hxs x (by simp)
      have hn : x.node.isBlank = false := by
        cases hb : x.node.isBlank with
        | false => rfl
        | true => exact absurd hx.node (by simp [isTrivia_of_isBlank hb])
      simp [Beat.nodes, hn]
  rw [trimNodes, reverse_append, dropWhile_append_of_pos, hd, reverse_reverse]
  intro n hn
  exact ht.blank n (mem_reverse.1 hn)

lemma statementLength_nodesOf (hxs : ∀ x ∈ xs, x.Valid) (ht : IsTail tail) (hn : xs ≠ [])
    (hg : xs.head?.all (fun x => x.gap.isNone)) :
    statementLength (nodesOf xs ++ tail) = (nodesOf (xs.take (statementBeats xs))).length := by
  have hl : LeadAt tail xs ((((leadIndex .outside xs).map fun lead =>
        (lead.1, (nodesOf (xs.drop (lead.2 + 1)) ++ tail).length + 1)).map Prod.snd).getD
          (nodesOf xs ++ tail).length) (((leadIndex .outside xs).map Prod.snd).getD 0 + 1) := by
    cases hin : leadIndex .outside xs with
    | none =>
      obtain ⟨x, xs, rfl⟩ := exists_cons_of_ne_nil hn
      have hx : x.gap = none := by simpa using hg
      exact .inr ⟨by simp, by simp, by simp [Beat.nodes, hx]⟩
    | some lead =>
      obtain ⟨w, i⟩ := lead
      exact .inr ⟨by simp, by simpa using Nat.succ_le_of_lt (leadIndex_lt hin), by simp⟩
  have he : statementExtent ((leadIndex .outside xs).map Prod.fst) _ none none (nodesOf xs ++ tail) = _ :=
    statementExtent_nodesOf hxs ht hl none none
  rw [statementLength, leadWord_nodesOf hxs ht, trimNodes_nodesOf hxs ht]
  simp only [Option.map_map, comp_def] at he ⊢
  rw [he, statementBeats]
  cases extent ((leadIndex .outside xs).map Prod.fst) (((leadIndex .outside xs).map Prod.snd).getD 0 + 1) none none xs
    with
  | none => simp
  | some k => simp

lemma drop_nodesOf (xs : List Beat) (tail : List Node) (k : Nat) :
    (nodesOf xs ++ tail).drop (nodesOf (xs.take k)).length = nodesOf (xs.drop k) ++ tail := by
  conv_lhs => rw [← take_append_drop k xs, nodesOf_append, append_assoc]
  rw [take_append_drop, drop_left]

lemma take_nodesOf (xs : List Beat) (tail : List Node) (k : Nat) :
    (nodesOf xs ++ tail).take (nodesOf (xs.take k)).length = nodesOf (xs.take k) := by
  conv_lhs => rw [← take_append_drop k xs, nodesOf_append, append_assoc]
  rw [take_append_drop, take_left]

lemma not_isComment_nodesOf (hxs : ∀ x ∈ xs, x.Valid) (hta : IsTail tail) :
    ∀ n ∈ nodesOf xs ++ tail, n.isLeaf Token.isComment = false := by
  have hb : ∀ t : Token, t.kind = .blank → t.isComment = false := by
    intro t ht
    simp [Token.isComment, ht]
  intro n hn
  rcases mem_append.1 hn with hn | hn
  · obtain ⟨x, hx, hn⟩ := mem_flatMap.1 hn
    rcases mem_append.1 hn with hg | hno
    · obtain ⟨t, ht, rfl⟩ : ∃ t, x.gap = some t ∧ .leaf t = n := by simpa [map_eq_some_iff] using hg
      exact hb t ((hxs x hx).gap t ht)
    · obtain rfl := mem_singleton.1 hno
      have hc := (hxs x hx).node
      cases hx : x.node with
      | group o ms cl => rfl
      | leaf t =>
        rw [hx] at hc
        simp only [Node.isTrivia, Token.isTrivia, or_eq_false_iff] at hc
        simp [isLeaf, Token.isComment, hc.1.2, hc.2]
  · have hn := hta.blank n hn
    cases n with
    | group o ms cl => rfl
    | leaf t => exact hb t (by simpa [Node.isBlank, isLeaf] using hn)

lemma trailingComment_eq_zero {ns : List Node} (h : ∀ n ∈ ns, n.isLeaf Token.isComment = false) :
    trailingComment ns = 0 := by
  have honLine : ∀ n ∈ ns, (n.isLeaf fun t => t.isComment && !t.hasNewline) = false := by
    intro n hn
    have hc := h n hn
    cases n with
    | group o ms cl => rfl
    | leaf t => simp_all [isLeaf]
  rcases ns with _ | ⟨a, _ | ⟨b, r⟩⟩
  · rfl
  · simp [trailingComment, honLine a]
  · simp [trailingComment, honLine a, honLine b]

lemma leadIndex_flush (x : Beat) (xs : List Beat) (d : Decorator) :
    leadIndex d (x.flush :: xs) = leadIndex d (x :: xs) := rfl

lemma statementBeats_flush (x : Beat) (xs : List Beat) : statementBeats (x.flush :: xs) = statementBeats (x :: xs) := by
  have he : ∀ lead wait, extent lead (wait + 1) none none (x.flush :: xs) = extent lead (wait + 1) none none (x :: xs) := by
    intro lead wait
    simp [extent, Beat.flush]
  rw [statementBeats, statementBeats, leadIndex_flush]
  simp only [he]
  rfl

lemma passNode_pos {last next : Option Token} (h : passNode lead atLead last next more n = some k) : 0 < k := by
  have hm : ∀ {r : Option Nat}, r.map (· + 1) = some k → 0 < k := by
    intro r hr
    obtain ⟨j, -, rfl⟩ := map_eq_some_iff.1 hr
    omega
  cases n with
  | leaf t | group o ms cl =>
    simp only [passNode] at h
    split at h
    · cases h
      omega
    · exact hm h

lemma statementBeats_pos (x : Beat) (xs : List Beat) : 0 < statementBeats (x :: xs) := by
  rw [statementBeats]
  simp only [extent, Nat.add_eq_zero_iff, Nat.one_ne_zero, and_false, beq_iff_eq, and_eq_true, false_and, if_false]
  cases hp : passNode _ _ _ _ _ x.node with
  | none => simp
  | some k => exact passNode_pos hp

/-- The number of beats of the statement at the front, with the semicolon that guards it. -/
def pieceBeats : List Beat → Nat
  | x :: y :: ys =>
    if x.node.isLeaf (fun t => t.isPunct ";") && needsGuard y.node.first then 1 + statementBeats (y :: ys)
    else statementBeats (x :: y :: ys)
  | xs => statementBeats xs

lemma passNode_le {last next : Option Token} {bound : Nat} (hm : ∀ last header k, more last header = some k → k ≤ bound)
    (h : passNode lead atLead last next more n = some k) : k ≤ bound + 1 := by
  have hma : ∀ last header, (more last header).map (· + 1) = some k → k ≤ bound + 1 := by
    intro last header heq
    obtain ⟨j, hj, rfl⟩ := map_eq_some_iff.1 heq
    have := hm last header j hj
    omega
  have ho : some 1 = some k → k ≤ bound + 1 := by
    intro heq
    cases heq
    omega
  cases n with
  | leaf t | group o ms cl =>
    rw [passNode] at h
    split at h
    · exact ho h
    · exact hma _ _ h

lemma extent_le {last header : Option Token} (h : extent lead wait last header xs = some k) : k ≤ xs.length := by
  induction xs generalizing wait last header k with
  | nil => cases h
  | cons x xs ih =>
    rw [extent] at h
    split at h
    · cases h
      exact Nat.zero_le _
    · exact passNode_le (fun last header k hk => ih hk) h

lemma statementBeats_le (xs : List Beat) : statementBeats xs ≤ xs.length := by
  rw [statementBeats]
  cases he : extent _ _ none none xs with
  | none => exact le_refl _
  | some k => exact extent_le he

lemma pieceBeats_le (xs : List Beat) : pieceBeats xs ≤ xs.length := by
  match xs with
  | [] => exact statementBeats_le []
  | [x] => exact statementBeats_le [x]
  | x :: y :: ys =>
    have hm := statementBeats_le (y :: ys)
    rw [pieceBeats, length_cons]
    split
    · omega
    · exact statementBeats_le (x :: y :: ys)

lemma guardLength_nodesOf (hx : ∀ y ∈ xs, y.Valid) (ht : IsTail tail) : guardLength (x.node :: (nodesOf xs ++ tail)) =
      if x.node.isLeaf (fun t => t.isPunct ";") && (nextBeat xs).any needsGuard then
        1 + ((nodesOf xs ++ tail).takeWhile Node.isTrivia).length else 0 := by
  rw [guardLength, nextCode_nodesOf hx ht]

lemma takeWhile_isTrivia_nodesOf {y : Beat} (hy : y.Valid) (ns : List Node) :
    ((nodesOf (y :: xs) ++ ns).takeWhile Node.isTrivia).length + 1 = y.nodes.length := by
  cases hg : y.gap with
  | none => simp [Beat.nodes, hg, hy.node]
  | some t =>
    have ht : (Node.leaf t).isTrivia := isTrivia_gap hy hg
    simp [Beat.nodes, hg, hy.node, ht]

lemma pieceLength_nodesOf (hx : x.Valid) (hxs : ∀ y ∈ xs, y.Valid) (ht : IsTail tail) :
    pieceLength (nodesOf (x.flush :: xs) ++ tail) = (nodesOf ((x.flush :: xs).take (pieceBeats (x :: xs)))).length := by
  have ha : ∀ y ∈ x.flush :: xs, y.Valid := forall_mem_cons.2 ⟨hx.flush, hxs⟩
  have hco : nodesOf (x.flush :: xs) ++ tail = x.node :: (nodesOf xs ++ tail) := rfl
  have hc : ∀ k, trailingComment ((nodesOf (x.flush :: xs) ++ tail).drop k) = 0 := fun k =>
    trailingComment_eq_zero fun n hn => not_isComment_nodesOf ha ht n (mem_of_mem_drop hn)
  have hp : statementLength (nodesOf (x.flush :: xs) ++ tail) =
      (nodesOf ((x.flush :: xs).take (statementBeats (x :: xs)))).length := by
    rw [← statementBeats_flush]
    exact statementLength_nodesOf ha ht (by simp) (by simp [Beat.flush])
  rw [pieceLength]
  simp only [hc, Nat.add_zero]
  rw [hco, guardLength_nodesOf hxs ht, ← hco]
  cases xs with
  | nil => simpa [nextBeat, pieceBeats] using hp
  | cons y ys =>
    obtain ⟨hy, hys⟩ := forall_mem_cons.1 hxs
    rw [nextBeat, head?_cons, map_some, any_some, pieceBeats]
    split
    · have hw : ((nodesOf (y :: ys) ++ tail).takeWhile Node.isTrivia).length + 1 = y.nodes.length :=
        takeWhile_isTrivia_nodesOf hy tail
      have hf : nodesOf (x.flush :: y :: ys) ++ tail =
          (x.node :: (y.gap.map Node.leaf).toList) ++ (nodesOf (y.flush :: ys) ++ tail) := by
        simp [Beat.nodes, Beat.flush]
      have hl : 1 + ((nodesOf (y :: ys) ++ tail).takeWhile Node.isTrivia).length =
          (x.node :: (y.gap.map Node.leaf).toList).length := by
        simp only [Beat.nodes, length_append, length_cons, length_nil] at hw ⊢
        omega
      rw [hl, hf, drop_left, statementLength_nodesOf
        (forall_mem_cons.2 ⟨hy.flush, hys⟩) ht (by simp) (by simp [Beat.flush]), statementBeats_flush]
      obtain ⟨k, hk⟩ := Nat.exists_eq_succ_of_ne_zero (statementBeats_pos y ys).ne'
      rw [hk, add_comm 1, take_succ_cons, take_succ_cons, take_succ_cons]
      simp [Beat.nodes, Beat.flush]
      omega
    · simpa using hp

lemma pieceBeats_pos (x : Beat) (xs : List Beat) : 0 < pieceBeats (x :: xs) := by
  match xs with
  | [] => exact statementBeats_pos x []
  | y :: ys =>
    rw [pieceBeats]
    split
    · omega
    · exact statementBeats_pos x _

/-- The beats of a statement, and whether a blank line stands before it. -/
structure Chunk where
  blankBefore : Bool
  beats : List Beat

def Chunk.piece (c : Chunk) : Piece := ⟨nodesOf c.beats, c.blankBefore⟩

def chunks (blank : Bool) (xs : List Beat) : List Chunk :=
  match xs with
  | [] => []
  | x :: xs =>
    let length := pieceBeats (x :: xs)
    ⟨blank || x.spaced, (x.flush :: xs).take length⟩ :: chunks false (xs.drop (length - 1))
termination_by xs.length

lemma splitStatements_tail (ht : IsTail tail) (bl : Bool) : splitStatements bl tail = [] := by
  obtain ⟨hb, hs⟩ := ht
  match tail, hs with
  | [], _ => rw [splitStatements]
  | [n], _ => rw [splitStatements, if_pos (hb n mem_cons_self), splitStatements]

lemma splitStatements_nodesOf (hxs : ∀ x ∈ xs, x.Valid) (hta : IsTail tail) (bl : Bool) :
    splitStatements bl (nodesOf xs ++ tail) = (chunks bl xs).map Chunk.piece := by
  induction hn : xs.length using Nat.strong_induction_on generalizing xs bl with
  | _ n ih =>
    cases xs with
    | nil =>
      rw [chunks]
      exact splitStatements_tail hta bl
    | cons x xs =>
      obtain ⟨hx, hxs⟩ := forall_mem_cons.1 hxs
      have hno : x.node.isBlank = false := by
        cases hb : x.node.isBlank with
        | false => rfl
        | true => exact absurd hx.node (by simp [isTrivia_of_isBlank hb])
      have hcu : splitStatements (bl || x.spaced) (x.node :: (nodesOf xs ++ tail)) =
          (chunks bl (x :: xs)).map Chunk.piece := by
        have hc : x.node :: (nodesOf xs ++ tail) = nodesOf (x.flush :: xs) ++ tail := rfl
        have hpo := pieceBeats_pos x xs
        obtain ⟨k, hk⟩ := Nat.exists_eq_succ_of_ne_zero hpo.ne'
        have hp := pieceLength_nodesOf hx hxs hta
        have hd : (nodesOf xs ++ tail).drop (pieceLength (x.node :: (nodesOf xs ++ tail)) - 1) =
            nodesOf (xs.drop k) ++ tail := by
          have hr := drop_nodesOf (x.flush :: xs) tail (k + 1)
          rw [← Nat.succ_eq_add_one, ← hk, ← hp, ← hc, hk, drop_succ_cons] at hr
          obtain ⟨m, hm⟩ : ∃ m, pieceLength (x.node :: (nodesOf xs ++ tail)) = m + 1 :=
            Nat.exists_eq_succ_of_ne_zero (pieceLength_pos _ hno).ne'
          rw [hm, drop_succ_cons] at hr
          rwa [hm]
        rw [splitStatements, if_neg (by simp [hno]), chunks]
        simp only [hd, hk, map_cons, Nat.succ_sub_one]
        congr 1
        · rw [hc, hp, take_nodesOf, hk]
          rfl
        · exact ih (xs.drop k).length (by grind) (fun y hy => hxs y (mem_of_mem_drop hy)) false rfl
      cases hg : x.gap with
      | none =>
        have hs : x.spaced = false := by simp [Beat.spaced, hg]
        rw [hs, Bool.or_false] at hcu
        simpa [Beat.nodes, hg] using hcu
      | some t =>
        have hs : x.spaced = decide (2 ≤ t.newlines) := by simp [Beat.spaced, hg]
        have ht : (Node.leaf t).isBlank := by simp [Node.isBlank, isLeaf, hx.gap t hg]
        have hc : nodesOf (x :: xs) ++ tail = .leaf t :: x.node :: (nodesOf xs ++ tail) := by
          simp [Beat.nodes, hg]
        rw [hc, splitStatements, if_pos ht, ← hcu, hs]
        rfl

end Nodes

def Node.outline : Node → Token × Option Token
  | .leaf t => (t, none)
  | .group opener _ closer => (opener, some closer)

section Outline

variable {n' : Node}

section

variable (h : n'.outline = n.outline)

include h

lemma Node.first_outline : n'.first = n.first := by
  cases n <;> cases n' <;> simp_all [Node.outline, Node.first]

lemma Node.isLeaf_outline (p : Token → Bool) : n'.isLeaf p = n.isLeaf p := by
  cases n <;> cases n' <;> simp_all [Node.outline, isLeaf]

lemma Node.isGroup_outline (text : String) : n'.isGroup text = n.isGroup text := by
  cases n <;> cases n' <;> simp_all [Node.outline, Node.isGroup]

lemma Decorator.pass_outline (d : Decorator) : d.pass n' = d.pass n := by
  cases d <;> simp only [Decorator.pass, Node.isLeaf_outline h, Node.isGroup_outline h]

lemma passNode_outline (lead : Option String) (atLead : Bool)
    (last next : Option Token) (more : Option Token → Option Token → Option Nat) :
    passNode lead atLead last next more n' = passNode lead atLead last next more n := by
  cases n <;> cases n' <;> simp_all [Node.outline, passNode]

end

end Outline

def Beat.outline (x : Beat) : Token × Option Token := x.node.outline

/-- From outside the nodes are the same, and no line break was put in. -/
structure Eased (x y : Beat) : Prop where
  outline : y.outline = x.outline
  breaks : y.breaks = true → x.breaks = true

lemma map_outline_of_eased {a b : List Beat} (h : Forall₂ Eased a b) : b.map Beat.outline = a.map Beat.outline := by
  induction h with
  | nil => rfl
  | cons hx _ ih => rw [map_cons, map_cons, hx.outline, ih]

section Local

variable {a b c d xs ys : List Beat} {last header : Option Token}

lemma nextBeat_outline (h : ys.map Beat.outline = xs.map Beat.outline) : nextBeat ys = nextBeat xs := by
  cases xs with
  | nil => rw [map_eq_nil_iff.1 h]
  | cons x xs =>
    cases ys with
    | nil => cases h
    | cons y ys =>
      rw [map_cons, map_cons] at h
      exact congrArg some (Node.first_outline (cons.inj h).1)

lemma leadIndex_outline (h : ys.map Beat.outline = xs.map Beat.outline) (d : Decorator) :
    leadIndex d ys = leadIndex d xs := by
  induction xs generalizing ys d with
  | nil => rw [map_eq_nil_iff.1 h]
  | cons x xs ih =>
    cases ys with
    | nil => cases h
    | cons y ys =>
      rw [map_cons, map_cons] at h
      obtain ⟨hn, hr⟩ := cons.inj h
      have hn : y.node.outline = x.node.outline := hn
      rw [leadIndex, leadIndex, Decorator.pass_outline hn]
      simp only [ih hr, Node.isLeaf_outline hn, Node.isGroup_outline hn, Node.first_outline hn]

lemma passNode_congr {next : Option Token} {k : Option Nat}
    (hm : ∀ last header, more last header = k → more' last header = k)
    (h : passNode lead atLead last next more n = k.map (· + 1)) :
    passNode lead atLead last next more' n = k.map (· + 1) := by
  have hma : ∀ last header, (more last header).map (· + 1) = k.map (· + 1) →
      (more' last header).map (· + 1) = k.map (· + 1) := by
    intro last header heq
    rw [hm last header (Option.map_injective (fun i j hij => by simpa using hij) heq)]
  cases n with
  | leaf t =>
    simp only [passNode] at h ⊢
    split at h
    · rename_i hs
      rw [if_pos hs, h]
    · rename_i hs
      rw [if_neg hs]
      exact hma _ _ h
  | group o ms cl =>
    simp only [passNode] at h ⊢
    split at h
    · rename_i hc
      rw [if_pos hc, h]
    · rename_i hc
      rw [if_neg hc]
      exact hma _ _ h

lemma extent_cons {y : Beat} {k : Option Nat} (hx : Eased x y) (hr : ys.map Beat.outline = xs.map Beat.outline)
    (hm : ∀ last header, extent lead (wait - 1) last header xs = k → extent lead (wait - 1) last header ys = k)
    (h : extent lead wait last header (x :: xs) = k.map (· + 1)) :
    extent lead wait last header (y :: ys) = k.map (· + 1) := by
  have hn : y.node.outline = x.node.outline := hx.outline
  rw [extent] at h ⊢
  split at h
  · cases k <;> cases h
  · rename_i hb
    have hb' : ¬ (y.breaks && wait == 0 && breakEnds last header (some y.node.first)) := by
      rw [Node.first_outline hn]
      intro hy
      simp only [and_eq_true] at hy hb
      exact hb ⟨⟨hx.breaks hy.1.1, hy.1.2⟩, hy.2⟩
    rw [if_neg hb', passNode_outline hn, nextBeat_outline hr]
    exact passNode_congr hm h

lemma extent_append (ha : Forall₂ Eased a b) (hcd : d.map Beat.outline = c.map Beat.outline)
    (hb : c.head?.any Beat.breaks → d.head?.any Beat.breaks)
    (h : extent lead wait last header (a ++ c) = some a.length) :
    extent lead wait last header (b ++ d) = some b.length := by
  induction ha generalizing wait last header with
  | nil =>
    cases c with
    | nil => cases h
    | cons x c =>
      cases d with
      | nil => cases hcd
      | cons y d =>
        rw [map_cons, map_cons] at hcd
        simp only [nil_append, extent, length_nil, Node.first_outline (cons.inj hcd).1] at h ⊢
        split at h
        · rename_i hc
          simp only [and_eq_true] at hc
          have hy : y.breaks := by simpa using hb (by simpa using hc.1.1)
          rw [hy, hc.1.2, hc.2]
          rfl
        · exact absurd (passNode_pos h) (by omega)
  | @cons x y a b hx ha ih =>
    have hr : (b ++ d).map Beat.outline = (a ++ c).map Beat.outline := by
      rw [map_append, map_append, map_outline_of_eased ha, hcd]
    have hl := ha.length_eq
    have hco : extent lead wait last header (x :: (a ++ c)) = (some a.length).map (· + 1) := h
    have hm : ∀ last header, extent lead (wait - 1) last header (a ++ c) = some a.length →
        extent lead (wait - 1) last header (b ++ d) = some a.length := by
      intro last header hac
      rw [ih hac, hl]
    rw [cons_append, extent_cons hx hr hm hco, hl]
    rfl

lemma extent_eq_none (ha : Forall₂ Eased a b) (h : extent lead wait last header a = none) :
    extent lead wait last header b = none := by
  induction ha generalizing wait last header with
  | nil => rfl
  | cons hx ha ih =>
    exact extent_cons (k := none) hx (map_outline_of_eased ha) (fun _ _ hm => ih hm) h

lemma statementBeats_append (ha : Forall₂ Eased a b) (hc : d.map Beat.outline = c.map Beat.outline)
    (hb : c.head?.any Beat.breaks → d.head?.any Beat.breaks)
    (h : statementBeats (a ++ c) = a.length) : statementBeats (b ++ d) = b.length := by
  have hm : (b ++ d).map Beat.outline = (a ++ c).map Beat.outline := by
    rw [map_append, map_append, map_outline_of_eased ha, hc]
  rw [statementBeats] at h ⊢
  rw [leadIndex_outline hm]
  cases he : extent ((leadIndex .outside (a ++ c)).map Prod.fst)
      (((leadIndex .outside (a ++ c)).map Prod.snd).getD 0 + 1) none none (a ++ c) with
  | some k =>
    simp only [he, getD_some] at h
    rw [h] at he
    simp only [extent_append ha hc hb he, getD_some]
  | none =>
    -- The statement is all there is.
    simp only [he, Option.getD_none, length_append] at h
    obtain rfl : c = [] := length_eq_zero_iff.1 (by omega)
    obtain rfl : d = [] := by simpa using hc
    simp only [append_nil] at he ⊢
    simp only [extent_eq_none ha he, Option.getD_none]

lemma pieceBeats_flush (x : Beat) (xs : List Beat) : pieceBeats (x.flush :: xs) = pieceBeats (x :: xs) := by
  cases xs with
  | nil => exact statementBeats_flush x []
  | cons y ys =>
    rw [pieceBeats, pieceBeats, statementBeats_flush]
    rfl

/-- **A statement ends in the same place if line breaks are taken out of it, and one is put in behind it.** -/
lemma pieceBeats_append (hn : a ≠ []) (ha : Forall₂ Eased a b) (hc : d.map Beat.outline = c.map Beat.outline)
    (hb : c.head?.any Beat.breaks → d.head?.any Beat.breaks)
    (h : pieceBeats (a ++ c) = a.length) : pieceBeats (b ++ d) = b.length := by
  -- Without a guard.
  have hp : statementBeats (a ++ c) = a.length → statementBeats (b ++ d) = b.length := statementBeats_append ha hc hb
  cases ha with
  | nil => exact absurd rfl hn
  | @cons x y a b hxy ha =>
    have hx : y.node.outline = x.node.outline := hxy.outline
    simp only [cons_append] at h hp ⊢
    cases hac : a ++ c with
    | nil =>
      obtain ⟨rfl, rfl⟩ := append_eq_nil_iff.1 hac
      cases ha
      obtain rfl : d = [] := by simpa using hc
      exact hp h
    | cons x' xs =>
      have hm : (b ++ d).map Beat.outline = (x' :: xs).map Beat.outline := by
        rw [← hac, map_append, map_append, map_outline_of_eased ha, hc]
      cases hbd : b ++ d with
      | nil => rw [hbd] at hm; cases hm
      | cons y' ys =>
        rw [hbd, map_cons, map_cons] at hm
        have hx' : y'.node.outline = x'.node.outline := (cons.inj hm).1
        rw [hac] at h hp
        rw [hbd] at hp
        rw [pieceBeats, Node.isLeaf_outline hx, Node.first_outline hx']
        rw [pieceBeats] at h
        split at h
        · rename_i hg
          rw [if_pos hg]
          have hr : statementBeats (a ++ c) = a.length := by
            rw [hac]
            simp only [length_cons] at h
            omega
          rw [← hbd, statementBeats_append ha hc hb hr, length_cons]
          omega
        · rename_i hg
          rw [if_neg hg]
          exact hp h

end Local

structure Entry where
  gap : Option Token
  node : Node
  more : List Beat

namespace Entry

def beats (e : Entry) : List Beat := ⟨e.gap, e.node⟩ :: e.more

def body (e : Entry) : List Beat := ⟨none, e.node⟩ :: e.more

def chunk (e : Entry) : Chunk := ⟨e.gap.any fun t => 2 ≤ t.newlines, e.body⟩

end Entry

def Chunk.EasedTo (c : Chunk) (e : Entry) : Prop := Forall₂ Eased c.beats e.body

section

variable {bl : Bool} {xs : List Beat} {es : List Entry} (h : Forall₂ Chunk.EasedTo (chunks bl xs) es)

include h

lemma map_outline_entries : (es.flatMap Entry.beats).map Beat.outline = xs.map Beat.outline := by
  fun_induction chunks bl xs generalizing es with
  | case1 =>
    cases h
    rfl
  | case2 bl x xs length =>
    rename_i ih
    cases h with
    | @cons _ e _ es hf hm =>
      have hp : 0 < length := pieceBeats_pos x xs
      obtain ⟨k, hk⟩ := Nat.exists_eq_succ_of_ne_zero hp.ne'
      have hb := map_outline_of_eased hf
      have hr := ih hm
      rw [hk] at hb hr
      have hbe : e.beats.map Beat.outline = e.body.map Beat.outline := rfl
      rw [flatMap_cons, map_append, hbe, hb, hr, Nat.succ_sub_one, take_succ_cons,
        map_cons, cons_append, ← map_append, take_append_drop]
      rfl

lemma chunks_entries
    (hg : ∀ e ∈ es.tail, e.gap.any Token.hasNewline) : chunks false (es.flatMap Entry.beats) = es.map Entry.chunk := by
  fun_induction chunks bl xs generalizing es with
  | case1 =>
    cases h
    rw [flatMap_nil, chunks]
    rfl
  | case2 bl x xs length =>
    rename_i ih
    cases h with
    | @cons _ e _ es hf hm =>
      have hpo : 0 < length := pieceBeats_pos x xs
      obtain ⟨k, hk⟩ := Nat.exists_eq_succ_of_ne_zero hpo.ne'
      have hle : k + 1 ≤ (x.flush :: xs).length := by
        have := pieceBeats_le (x :: xs)
        rw [← Nat.succ_eq_add_one, ← hk]
        simpa using this
      rw [hk] at hf hm ih
      have hc : (x.flush :: xs).take (k + 1) ++ xs.drop k = x.flush :: xs := by
        rw [take_succ_cons, cons_append, take_append_drop]
      have hb := hf.length_eq
      rw [length_take, Nat.min_eq_left hle] at hb
      -- The first statement ends where it ended.
      have hp : pieceBeats (e.body ++ es.flatMap Entry.beats) = e.body.length := by
        refine pieceBeats_append ?_ hf (map_outline_entries hm) ?_ ?_
        · rw [take_succ_cons]
          exact cons_ne_nil _ _
        · intro ha
          cases es with
          | nil =>
            have hn := map_outline_entries hm
            rw [flatMap_nil, map_nil, eq_comm, map_eq_nil_iff] at hn
            rw [hn] at ha
            cases ha
          | cons e' es => exact hg e' (by simp)
        · rw [Nat.succ_sub_one, hc, pieceBeats_flush, length_take, Nat.min_eq_left hle]
          exact hk
      have hfl : e.beats ++ es.flatMap Entry.beats = ⟨e.gap, e.node⟩ :: (e.more ++ es.flatMap Entry.beats) := rfl
      have hl : pieceBeats (⟨e.gap, e.node⟩ :: (e.more ++ es.flatMap Entry.beats)) = e.more.length + 1 := by
        rw [← pieceBeats_flush]
        exact hp
      have hr := ih hm fun e' he' => hg e' (by
        rw [tail_cons]
        exact mem_of_mem_tail he')
      rw [flatMap_cons, hfl, chunks, hl, Nat.add_sub_cancel, drop_left, hr, map_cons, take_succ_cons, take_left]
      rfl

end

def Uncommented (nodes : List Node) : Prop := ∀ t ∈ tokensOf nodes, t.isComment = false

lemma Uncommented.append {as bs : List Node} : Uncommented (as ++ bs) ↔ Uncommented as ∧ Uncommented bs := by
  simp [Uncommented, or_imp, forall_and]

lemma Uncommented.cons {ns : List Node} : Uncommented (n :: ns) ↔ Uncommented [n] ∧ Uncommented ns :=
  @Uncommented.append [n] ns

lemma Uncommented.isTrivia_eq (h : Uncommented [n]) : n.isTrivia = n.isBlank := by
  cases n with
  | group o ms cl => rfl
  | leaf t =>
    have ht : t.isComment = false := h t (by simp)
    simp only [Token.isComment, or_eq_false_iff] at ht
    simp [Node.isTrivia, Node.isBlank, isLeaf, Token.isTrivia, ht]

lemma exists_beats {ms : List Node} (ha : ms.IsChain fun n m => n.isBlank → m.isBlank = false) (hc : Uncommented ms) :
    ∃ xs tail, ms = nodesOf xs ++ tail ∧ (∀ x ∈ xs, x.Valid) ∧ IsTail tail := by
  have hco : ∀ {n : Node}, Uncommented [n] → n.isBlank = false → n.isTrivia = false := by
    intro n hn hb
    rw [hn.isTrivia_eq, hb]
  induction hl : ms.length using Nat.strong_induction_on generalizing ms with
  | _ k ih =>
    match ms with
    | [] => exact ⟨[], [], rfl, by simp, ⟨by simp, by simp⟩⟩
    | n :: ns =>
      obtain ⟨hn, hns⟩ := Uncommented.cons.1 hc
      have hr := (isChain_cons.1 ha).2
      cases hb : n.isBlank with
      | false =>
        obtain ⟨xs, tail, hs, hx, ht⟩ := ih ns.length (by simp [← hl]) hr hns rfl
        refine ⟨⟨none, n⟩ :: xs, tail, by rw [hs]; rfl, ?_, ht⟩
        exact forall_mem_cons.2 ⟨⟨by simp, hco hn hb⟩, hx⟩
      | true =>
        match ns with
        | [] => exact ⟨[], [n], rfl, by simp, ⟨by simpa using hb, by simp⟩⟩
        | m :: ns =>
          obtain ⟨hm, hns⟩ := Uncommented.cons.1 hns
          obtain ⟨xs, tail, hs, hx, ht⟩ := ih ns.length (by grind) (isChain_cons.1 hr).2 hns rfl
          cases n with
          | group o ins cl => cases hb
          | leaf t =>
            refine ⟨⟨some t, m⟩ :: xs, tail, by rw [hs]; rfl, ?_, ht⟩
            refine forall_mem_cons.2 ⟨⟨?_, hco hm ((isChain_cons_cons.1 ha).1 hb)⟩, hx⟩
            simpa [Node.isBlank, isLeaf] using hb

end CustomElement.Script
