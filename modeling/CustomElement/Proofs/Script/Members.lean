import CustomElement.Proofs.Script.Beats

/-!
# Class members beat by beat

Where a class member ends is decided node by node (`memberBeats`, `signatureBeats`).
-/

namespace CustomElement.Script

open List Text

variable {e : MemberEnd} {k : Nat} {n : Node} {t : Token}

structure Midway where
  decorator : Decorator
  assigned : Bool
  last : Option Token
  header : Option Token

def Midway.start : Midway := ⟨.outside, false, none, none⟩

/-- Passing a node of a member: how the member ends, or what is known behind the node. -/
def Midway.pass (s : Midway) (n : Node) : MemberEnd ⊕ Midway :=
  match s.decorator.pass n with
  | some d => .inr ⟨d, s.assigned, none, none⟩
  | none =>
    match n with
    | .leaf t =>
      if t.isPunct ";" then .inl (.closed 1)
      else if t.isPunct "@" then .inr ⟨.name, s.assigned, none, none⟩
      else if t.isPunct "=" then .inr ⟨.outside, true, some t, none⟩
      else .inr ⟨.outside, s.assigned, some t, none⟩
    | .group opener _ closer =>
      if opener.isPunct "(" && !s.assigned then .inl (.params 0)
      else if opener.isPunct openBrace && !s.assigned then .inl (.closed 1)
      else .inr ⟨.outside, s.assigned, some closer, s.last⟩

def memberBeats (s : Midway) : List Beat → MemberEnd
  | [] => .runsOn
  | x :: xs =>
    if x.breaks && breakEnds s.last s.header (some x.node.first) then .broken 0
    else (s.pass x.node).elim id fun s => (memberBeats s xs).after

def signatureBeats : List Beat → SignatureEnd
  | [] => .runsOn
  | x :: xs =>
    if x.breaks && !(x.node.first.isPunct openBrace || x.node.first.continuesExpression) then .broken 0
    else if x.node.isGroup openBrace then .body 0
    else if x.node.isLeaf fun t => t.isPunct ";" then .closed 1
    else (signatureBeats xs).after

def Beat.before (x : Beat) : List Node := (x.gap.map Node.leaf).toList

def nodesBefore (xs : List Beat) (k : Nat) : List Node :=
  nodesOf (xs.take k) ++ ((xs.drop k).head?.map Beat.before).getD []

def MemberEnd.shift (n : Nat) : MemberEnd → MemberEnd
  | .broken k => .broken (k + n)
  | .closed k => .closed (k + n)
  | .params k => .params (k + n)
  | .runsOn => .runsOn

lemma MemberEnd.shift_after (n : Nat) (e : MemberEnd) : e.after.shift n = e.shift (n + 1) := by
  cases e <;> simp [MemberEnd.after, MemberEnd.shift, add_comm, Nat.add_left_comm]

lemma MemberEnd.shift_zero (e : MemberEnd) : e.shift 0 = e := by
  cases e <;> rfl

lemma MemberEnd.after_eq_shift (e : MemberEnd) : e.after = e.shift 1 := by
  cases e <;> rfl

def MemberEnd.inNodes (xs : List Beat) : MemberEnd → MemberEnd
  | .broken k => .broken (nodesOf (xs.take k)).length
  | .closed k => .closed (nodesOf (xs.take k)).length
  | .params k => .params (nodesBefore xs k).length
  | .runsOn => .runsOn

lemma Beat.length_nodes (x : Beat) : x.nodes.length = x.before.length + 1 := by
  simp [Beat.nodes, Beat.before]

lemma MemberEnd.inNodes_after (x : Beat) (xs : List Beat) (e : MemberEnd) :
    e.after.inNodes (x :: xs) = (e.inNodes xs).shift (x.before.length + 1) := by
  cases e with
  | broken k | closed k => simp [MemberEnd.after, MemberEnd.inNodes, MemberEnd.shift, x.length_nodes, add_comm]
  | params k =>
    simp only [MemberEnd.after, MemberEnd.inNodes, MemberEnd.shift, nodesBefore, take_succ_cons, nodesOf_cons,
      drop_succ_cons, length_append, x.length_nodes, MemberEnd.params.injEq]
    omega
  | runsOn => rfl

section Nodes

variable {xs : List Beat} {tail : List Node}

lemma memberEnd_node (hn : n.isTrivia = false) (s : Midway) (ns : List Node) :
    memberEnd s.decorator s.assigned s.last s.header (n :: ns) =
      (s.pass n).elim id fun s => (memberEnd s.decorator s.assigned s.last s.header ns).after := by
  conv_lhs => unfold memberEnd
  rw [if_neg (by simp [hn])]
  unfold Midway.pass
  cases s.decorator.pass n with
  | some d => rfl
  | none =>
    cases n with
    | leaf t =>
      dsimp only
      split
      · rfl
      · split
        · rfl
        · split <;> rfl
    | group o ms cl =>
      dsimp only
      split
      · rfl
      · split <;> rfl

lemma memberEnd_blank (ht : t.kind = .blank) (d : Decorator) (assigned : Bool) (last hdr : Option Token) (ns : List Node) :
    memberEnd d assigned last hdr (.leaf t :: ns) = if t.hasNewline && breakEnds last hdr (nextCode ns) then .broken 0
      else (memberEnd d assigned last hdr ns).after := by
  have htr : (Node.leaf t).isTrivia := by simp [Node.isTrivia, Token.isTrivia, ht]
  have hb : (Node.leaf t).isBlank := by simp [Node.isBlank, isLeaf, ht]
  rw [memberEnd, if_pos htr, hb, Bool.true_and]
  rfl

lemma Beat.Valid.spread {x : Beat} (h : x.Valid) (xs : List Beat) (tail : List Node) :
    (x.breaks = false ∧ x.before.length = 0 ∧ nodesOf (x :: xs) ++ tail = x.node :: (nodesOf xs ++ tail)) ∨
      ∃ t : Token, t.kind = .blank ∧ x.breaks = t.hasNewline ∧ x.before.length = 1 ∧
        nodesOf (x :: xs) ++ tail = .leaf t :: x.node :: (nodesOf xs ++ tail) := by
  cases hg : x.gap with
  | none => exact .inl (by simp [Beat.breaks, Beat.before, Beat.nodes, hg])
  | some t => exact .inr ⟨t, h.gap t hg, by simp [Beat.breaks, Beat.before, Beat.nodes, hg]⟩

lemma memberEnd_tail (hta : IsTail tail) (d : Decorator) (assigned : Bool) (last hdr : Option Token) :
    memberEnd d assigned last hdr tail = .runsOn := by
  obtain rfl | ⟨t, ht, rfl⟩ := hta.eq_nil_or_leaf
  · rfl
  · have hn : breakEnds last hdr (nextCode []) = false := by
      rw [breakEnds.eq_def]
      cases last <;> rfl
    rw [memberEnd_blank ht, hn, Bool.and_false, if_neg (by simp)]
    rfl

lemma Midway.pass_inl {s : Midway} (h : s.pass n = .inl e) : e = .closed 1 ∨ e = .params 0 := by
  unfold Midway.pass at h
  split at h
  · cases h
  · split at h
    · split at h
      · exact .inl (Sum.inl.inj h).symm
      · split at h
        · cases h
        · split at h <;> cases h
    · split at h
      · exact .inr (Sum.inl.inj h).symm
      · split at h
        · exact .inl (Sum.inl.inj h).symm
        · cases h

lemma memberEnd_nodesOf (hxs : ∀ x ∈ xs, x.Valid) (hta : IsTail tail) (s : Midway) :
    memberEnd s.decorator s.assigned s.last s.header (nodesOf xs ++ tail) = (memberBeats s xs).inNodes xs := by
  induction xs generalizing s with
  | nil => exact memberEnd_tail hta _ _ _ _
  | cons x xs ih =>
    obtain ⟨hx, hxs⟩ := forall_mem_cons.1 hxs
    -- The node behind the blank.
    have hno : (memberEnd s.decorator s.assigned s.last s.header (x.node :: (nodesOf xs ++ tail))).shift x.before.length =
        ((s.pass x.node).elim id fun s => (memberBeats s xs).after).inNodes (x :: xs) := by
      rw [memberEnd_node hx.node]
      cases hp : s.pass x.node with
      | inl e =>
        rcases Midway.pass_inl hp with rfl | rfl
        · simp [MemberEnd.shift, MemberEnd.inNodes, x.length_nodes, add_comm]
        · simp [MemberEnd.shift, MemberEnd.inNodes, nodesBefore]
      | inr s => rw [Sum.elim_inr, Sum.elim_inr, ih hxs s, MemberEnd.inNodes_after, MemberEnd.shift_after]
    have hne : nextCode (x.node :: (nodesOf xs ++ tail)) = some x.node.first := by
      rw [nextCode, find?_cons_of_pos (by simp [hx.node]), map_some]
    rw [memberBeats]
    rcases hx.spread xs tail with ⟨hb, hbe, hn⟩ | ⟨t, ht, hb, hbe, hn⟩
    · rw [hn, hb, Bool.false_and, if_neg (by simp), ← hno, hbe, MemberEnd.shift_zero]
    · rw [hn, memberEnd_blank ht, hne, hb]
      split
      · rfl
      · rw [← hno, hbe, MemberEnd.after_eq_shift]

/-- The end in nodes; a line break at the very end ends a signature too. -/
def SignatureEnd.inNodes (xs : List Beat) (tail : List Node) : SignatureEnd → SignatureEnd
  | .body k => .body (nodesBefore xs k).length
  | .broken k => .broken (nodesOf (xs.take k)).length
  | .closed k => .closed (nodesOf (xs.take k)).length
  | .runsOn => if hasNewline tail then .broken (nodesOf xs).length else .runsOn

def SignatureEnd.shift (n : Nat) : SignatureEnd → SignatureEnd
  | .body k => .body (k + n)
  | .broken k => .broken (k + n)
  | .closed k => .closed (k + n)
  | .runsOn => .runsOn

lemma SignatureEnd.shift_after (n : Nat) (e : SignatureEnd) : e.after.shift n = e.shift (n + 1) := by
  cases e <;> simp [SignatureEnd.after, SignatureEnd.shift, add_comm, Nat.add_left_comm]

lemma SignatureEnd.shift_zero (e : SignatureEnd) : e.shift 0 = e := by
  cases e <;> rfl

lemma SignatureEnd.after_eq_shift (e : SignatureEnd) : e.after = e.shift 1 := by
  cases e <;> rfl

lemma SignatureEnd.inNodes_after (x : Beat) (xs : List Beat) (tail : List Node) (e : SignatureEnd) :
    e.after.inNodes (x :: xs) tail = (e.inNodes xs tail).shift (x.before.length + 1) := by
  cases e with
  | body k =>
    simp only [SignatureEnd.after, SignatureEnd.inNodes, SignatureEnd.shift, nodesBefore, take_succ_cons,
      nodesOf_cons, drop_succ_cons, length_append, x.length_nodes, SignatureEnd.body.injEq]
    omega
  | broken k | closed k => simp [SignatureEnd.after, SignatureEnd.inNodes, SignatureEnd.shift, x.length_nodes, add_comm]
  | runsOn =>
    simp only [SignatureEnd.after, SignatureEnd.inNodes]
    split
    · simp [SignatureEnd.shift, x.length_nodes, add_comm]
    · rfl

lemma signatureEnd_node (hn : n.isBlank = false) (ns : List Node) : signatureEnd (n :: ns) =
      if n.isGroup openBrace then .body 0 else if n.isLeaf fun t => t.isPunct ";" then .closed 1
      else (signatureEnd ns).after := by
  rw [signatureEnd, hn, Bool.false_and, Bool.false_and]
  rfl

lemma signatureEnd_blank (ht : t.kind = .blank) (ns : List Node) : signatureEnd (.leaf t :: ns) =
      if t.hasNewline && !(nextCode ns).any (fun t => t.isPunct openBrace || t.continuesExpression) then .broken 0
      else (signatureEnd ns).after := by
  have hb : (Node.leaf t).isBlank := by simp [Node.isBlank, isLeaf, ht]
  have hm : (Node.leaf t).isLeaf (fun t => t.isPunct ";") = false := by
    simp [isLeaf, Token.isPunct, ht]
  rw [signatureEnd, hb, hm, Bool.true_and]
  rfl

lemma signatureEnd_nodesOf (hxs : ∀ x ∈ xs, x.Valid) (hta : IsTail tail) :
    signatureEnd (nodesOf xs ++ tail) = (signatureBeats xs).inNodes xs tail := by
  induction xs with
  | nil =>
    obtain rfl | ⟨t, ht, rfl⟩ := hta.eq_nil_or_leaf
    · rfl
    · rw [nodesOf_nil, nil_append, signatureEnd_blank ht]
      simp [nextCode, signatureEnd, SignatureEnd.after, signatureBeats, SignatureEnd.inNodes, hasNewline]
  | cons x xs ih =>
    obtain ⟨hx, hxs⟩ := forall_mem_cons.1 hxs
    have hc : x.node.isBlank = false := by
      cases hb : x.node.isBlank with
      | false => rfl
      | true =>
        rw [← hx.node, ← isTrivia_of_isBlank hb]
    have hne : nextCode (x.node :: (nodesOf xs ++ tail)) = some x.node.first := by
      rw [nextCode, find?_cons_of_pos (by simp [hx.node]), map_some]
    -- The node behind the blank.
    have hno : (signatureEnd (x.node :: (nodesOf xs ++ tail))).shift x.before.length =
        (if x.node.isGroup openBrace then .body 0
          else if x.node.isLeaf fun t => t.isPunct ";" then .closed 1
          else (signatureBeats xs).after : SignatureEnd).inNodes (x :: xs) tail := by
      rw [signatureEnd_node hc, ih hxs]
      split
      · simp [SignatureEnd.shift, SignatureEnd.inNodes, nodesBefore]
      · split
        · simp [SignatureEnd.shift, SignatureEnd.inNodes, x.length_nodes, add_comm]
        · rw [SignatureEnd.inNodes_after, SignatureEnd.shift_after]
    rw [signatureBeats]
    rcases hx.spread xs tail with ⟨hbr, hbe, hn⟩ | ⟨t, ht, hbr, hbe, hn⟩
    · simp only [hn, hbr, Bool.false_and, false_eq_true, if_false]
      rw [← hno, hbe, SignatureEnd.shift_zero]
    · rw [hn, signatureEnd_blank ht, hne, hbr, any_some]
      split
      · rfl
      · rw [← hno, hbe, SignatureEnd.after_eq_shift]

end Nodes

def Midway.through (s : Midway) : List Beat → Midway
  | [] => s
  | x :: xs => (s.pass x.node).elim (fun _ => s) fun s => s.through xs

lemma MemberEnd.after_eq_runsOn : e.after = .runsOn ↔ e = .runsOn := by
  cases e <;> simp [MemberEnd.after]

lemma SignatureEnd.after_eq_runsOn {e : SignatureEnd} : e.after = .runsOn ↔ e = .runsOn := by
  cases e <;> simp [SignatureEnd.after]

section Parts

variable {a b c d : List Beat} {s : Midway}

lemma memberBeats_append_of_runsOn (h : memberBeats s a = .runsOn) (c : List Beat) :
    memberBeats s (a ++ c) = (memberBeats (s.through a) c).shift a.length := by
  induction a generalizing s with
  | nil => exact (MemberEnd.shift_zero _).symm
  | cons x a ih =>
    rw [memberBeats] at h
    rw [cons_append, memberBeats, Midway.through]
    split at h
    · cases h
    · rename_i hb
      rw [if_neg hb]
      cases hp : s.pass x.node with
      | inl e =>
        rw [hp] at h
        rcases Midway.pass_inl hp with rfl | rfl <;> cases h
      | inr s =>
        rw [hp, Sum.elim_inr, MemberEnd.after_eq_runsOn] at h
        rw [Sum.elim_inr, Sum.elim_inr, ih h]
        cases memberBeats (s.through a) c <;> simp [MemberEnd.after, MemberEnd.shift, add_assoc]

lemma memberBeats_append_of_ne (h : memberBeats s a ≠ .runsOn) (c : List Beat) :
    memberBeats s (a ++ c) = memberBeats s a := by
  induction a generalizing s with
  | nil => exact absurd rfl h
  | cons x a ih =>
    rw [cons_append, memberBeats, memberBeats]
    rw [memberBeats] at h
    split
    · rfl
    · rename_i hb
      rw [if_neg hb] at h
      cases hp : s.pass x.node with
      | inl e => rfl
      | inr s =>
        rw [hp, Sum.elim_inr, Ne, MemberEnd.after_eq_runsOn] at h
        rw [Sum.elim_inr, Sum.elim_inr, ih h]

lemma signatureBeats_append_of_runsOn (h : signatureBeats a = .runsOn) (c : List Beat) :
    signatureBeats (a ++ c) = (signatureBeats c).shift a.length := by
  induction a with
  | nil => exact (SignatureEnd.shift_zero _).symm
  | cons x a ih =>
    rw [signatureBeats] at h
    rw [cons_append, signatureBeats]
    split at h
    · cases h
    · rename_i hb
      rw [if_neg hb]
      split at h
      · cases h
      · rename_i hbo
        rw [if_neg hbo]
        split at h
        · cases h
        · rename_i hc
          rw [if_neg hc, ih (SignatureEnd.after_eq_runsOn.1 h)]
          cases signatureBeats c <;> simp [SignatureEnd.after, SignatureEnd.shift, add_assoc]

lemma signatureBeats_append_of_ne (h : signatureBeats a ≠ .runsOn) (c : List Beat) :
    signatureBeats (a ++ c) = signatureBeats a := by
  induction a with
  | nil => exact absurd rfl h
  | cons x a ih =>
    rw [cons_append, signatureBeats, signatureBeats]
    rw [signatureBeats] at h
    split
    · rfl
    · rename_i hb
      rw [if_neg hb] at h
      split
      · rfl
      · rename_i hbo
        rw [if_neg hbo] at h
        split
        · rfl
        · rename_i hc
          rw [if_neg hc, Ne, SignatureEnd.after_eq_runsOn] at h
          rw [ih h]

lemma Midway.pass_outline {n' : Node} (h : n'.outline = n.outline) (s : Midway) : s.pass n' = s.pass n := by
  unfold Midway.pass
  rw [Decorator.pass_outline h]
  cases n <;> cases n' <;> simp_all [Node.outline]

lemma Midway.through_outline (h : b.map Beat.outline = a.map Beat.outline) (s : Midway) : s.through b = s.through a := by
  induction a generalizing b s with
  | nil => rw [map_eq_nil_iff.1 h]
  | cons x a ih =>
    cases b with
    | nil => cases h
    | cons y b =>
      rw [map_cons, map_cons] at h
      obtain ⟨hn, hr⟩ := cons.inj h
      rw [Midway.through, Midway.through, Midway.pass_outline hn]
      simp only [ih hr]

lemma memberBeats_eased (ha : Forall₂ Eased a b) (h : ∀ k, memberBeats s a ≠ .broken k) :
    memberBeats s b = memberBeats s a := by
  induction ha generalizing s with
  | nil => rfl
  | @cons x y a b hx ha ih =>
    have hn : y.node.outline = x.node.outline := hx.outline
    rw [memberBeats] at h
    rw [memberBeats, memberBeats, Midway.pass_outline hn, Node.first_outline hn]
    split at h
    · exact absurd rfl (h 0)
    · rename_i hb
      have hb' : ¬ (y.breaks && breakEnds s.last s.header (some x.node.first)) := by
        intro hy
        rw [and_eq_true] at hy hb
        exact hb ⟨hx.breaks hy.1, hy.2⟩
      rw [if_neg hb, if_neg hb']
      cases hp : s.pass x.node with
      | inl e => rfl
      | inr s =>
        rw [hp, Sum.elim_inr] at h
        rw [Sum.elim_inr, Sum.elim_inr, ih]
        intro k hk
        exact h (k + 1) (by rw [hk]; rfl)

lemma signatureBeats_eased (ha : Forall₂ Eased a b) (h : ∀ k, signatureBeats a ≠ .broken k) :
    signatureBeats b = signatureBeats a := by
  induction ha with
  | nil => rfl
  | @cons x y a b hx ha ih =>
    have hn : y.node.outline = x.node.outline := hx.outline
    rw [signatureBeats] at h
    rw [signatureBeats, signatureBeats, Node.first_outline hn, Node.isGroup_outline hn, Node.isLeaf_outline hn]
    split at h
    · exact absurd rfl (h 0)
    · rename_i hb
      have hb' : ¬ (y.breaks && !(x.node.first.isPunct openBrace || x.node.first.continuesExpression)) := by
        intro hy
        rw [and_eq_true] at hy hb
        exact hb ⟨hx.breaks hy.1, hy.2⟩
      rw [if_neg hb, if_neg hb']
      split
      · rfl
      · rename_i hbo
        rw [if_neg hbo] at h
        split
        · rfl
        · rename_i hc
          rw [if_neg hc] at h
          rw [ih]
          intro k hk
          exact h (k + 1) (by rw [hk]; rfl)

def signatureLength (xs : List Beat) : Nat :=
  match signatureBeats xs with
  | .broken m => m
  | .closed m => m
  | .runsOn => xs.length
  | .body m => m + 1

def memberLength (xs : List Beat) : Nat :=
  match memberBeats .start xs with
  | .broken k => k
  | .closed k => k
  | .runsOn => xs.length
  | .params k => k + 1 + signatureLength (xs.drop (k + 1))

structure MethodBeats where
  head : List Beat
  params : Beat
  between : List Beat
  body : Beat

namespace MethodBeats

def beats (m : MethodBeats) : List Beat := m.head ++ m.params :: (m.between ++ [m.body])

def cut (m : MethodBeats) : MethodCut :=
  ⟨nodesOf m.head ++ m.params.before, m.params.node, nodesOf m.between ++ m.body.before, m.body.node⟩

structure Marked (m : MethodBeats) : Prop where
  params : memberBeats .start m.beats = .params m.head.length
  body : signatureBeats (m.between ++ [m.body]) = .body m.between.length

end MethodBeats

inductive Shape (a : List Beat) : Prop
  | opened (h : memberBeats .start a = .runsOn)
  | closed (h : memberBeats .start a = .closed a.length)
  | unsigned (k : Nat) (h : memberBeats .start a = .params k) (hsign : signatureBeats (a.drop (k + 1)) = .runsOn)
      (hlength : k < a.length)
  | declared (k m : Nat) (h : memberBeats .start a = .params k) (hsign : signatureBeats (a.drop (k + 1)) = .closed m)
      (hlength : k + 1 + m = a.length)
  | method (m : MethodBeats) (h : a = m.beats) (hm : m.Marked)

/-- The member is not ended by its own beats, and a line that begins with this token carries it on. -/
def carriesOn (a : List Beat) (t : Token) : Bool :=
  match memberBeats .start a with
  | .runsOn => t.continuesExpression
  | .params k =>
    match signatureBeats (a.drop (k + 1)) with
    | .runsOn => t.isPunct openBrace || t.continuesExpression
    | _ => false
  | _ => false

def Breakable (a : List Beat) : Prop :=
  memberBeats .start a = .runsOn →
    ∃ t, breakEnds (Midway.start.through a).last (Midway.start.through a).header (some t) = true

lemma breakEnds_congr {last hdr : Option Token} (h : breakEnds last hdr (some t)) (u : Token) :
    breakEnds last hdr (some u) = !u.continuesExpression := by
  cases last with
  | none => cases h
  | some l =>
    simp only [breakEnds, and_eq_true] at h ⊢
    rw [h.1.1, h.1.2, Bool.true_and, Bool.true_and]

def MemberEnd.Within (n : Nat) : MemberEnd → Prop
  | .broken k => k < n
  | .closed k => k ≤ n
  | .params k => k < n
  | .runsOn => True

lemma MemberEnd.Within.after {n : Nat} (h : e.Within n) : e.after.Within (n + 1) := by
  cases e <;> simp only [MemberEnd.Within, MemberEnd.after] at h ⊢ <;> omega

lemma memberBeats_within (s : Midway) (xs : List Beat) : (memberBeats s xs).Within xs.length := by
  induction xs generalizing s with
  | nil => trivial
  | cons x xs ih =>
    rw [memberBeats]
    split
    · exact succ_pos _
    · cases hp : s.pass x.node with
      | inl e =>
        rcases Midway.pass_inl hp with rfl | rfl
        · exact succ_pos _
        · exact succ_pos _
      | inr s => exact (ih s).after

def SignatureEnd.Within (n : Nat) : SignatureEnd → Prop
  | .broken k => k < n
  | .closed k => k ≤ n
  | .body k => k < n
  | .runsOn => True

lemma SignatureEnd.Within.after {n : Nat} {e : SignatureEnd} (h : e.Within n) : e.after.Within (n + 1) := by
  cases e <;> simp only [SignatureEnd.Within, SignatureEnd.after] at h ⊢ <;> omega

lemma signatureBeats_within (xs : List Beat) : (signatureBeats xs).Within xs.length := by
  induction xs with
  | nil => trivial
  | cons x xs ih =>
    rw [signatureBeats]
    split
    · exact succ_pos _
    · split
      · exact succ_pos _
      · split
        · exact succ_pos _
        · exact ih.after

lemma signatureLength_le (xs : List Beat) : signatureLength xs ≤ xs.length := by
  have hw := signatureBeats_within xs
  unfold signatureLength
  cases he : signatureBeats xs <;> rw [he] at hw <;> simp only [SignatureEnd.Within] at hw ⊢ <;> omega

lemma memberLength_le (xs : List Beat) : memberLength xs ≤ xs.length := by
  have hw := memberBeats_within .start xs
  unfold memberLength
  cases he : memberBeats .start xs with
  | params k =>
    have hl := signatureLength_le (xs.drop (k + 1))
    rw [he] at hw
    simp only [MemberEnd.Within, length_drop] at hw hl ⊢
    omega
  | broken k =>
    rw [he] at hw
    exact hw.le
  | closed k =>
    rw [he] at hw
    exact hw
  | runsOn => exact le_rfl

lemma memberLength_pos (x : Beat) (xs : List Beat) : 0 < memberLength (x :: xs) := by
  have hf : memberBeats .start (x :: xs) = (Midway.start.pass x.node).elim id fun s => (memberBeats s xs).after := by
    have hn : breakEnds Midway.start.last Midway.start.header (some x.node.first) = false := rfl
    rw [memberBeats, hn, Bool.and_false, if_neg (by simp)]
  unfold memberLength
  rw [hf]
  cases hp : Midway.start.pass x.node with
  | inl e =>
    rcases Midway.pass_inl hp with rfl | rfl
    · exact one_pos
    · simp only [Sum.elim_inl, id]
      omega
  | inr s =>
    rw [Sum.elim_inr]
    cases memberBeats s xs with
    | params k =>
      simp only [MemberEnd.after]
      omega
    | runsOn => exact succ_pos _
    | _ => exact succ_pos _

variable {y : Beat}

lemma memberLength_of_runsOn (h : memberBeats .start a = .runsOn) : memberLength a = a.length := by
  rw [memberLength, h]

lemma memberLength_opened (h : memberBeats .start a = .runsOn)
    (hy : (y.breaks && breakEnds (Midway.start.through a).last (Midway.start.through a).header (some y.node.first)) =
      true) : memberLength (a ++ y :: d) = a.length := by
  rw [memberLength, memberBeats_append_of_runsOn h, memberBeats, if_pos hy]
  exact zero_add _

lemma lt_memberLength_opened (h : memberBeats .start a = .runsOn)
    (hy : (y.breaks && breakEnds (Midway.start.through a).last (Midway.start.through a).header (some y.node.first)) =
      false) : a.length < memberLength (a ++ y :: d) := by
  rw [memberLength, memberBeats_append_of_runsOn h, memberBeats, if_neg (by simp [hy])]
  cases hp : (Midway.start.through a).pass y.node with
  | inl e =>
    rcases Midway.pass_inl hp with rfl | rfl
    · simp only [Sum.elim_inl, id, MemberEnd.shift]
      omega
    · simp only [Sum.elim_inl, id, MemberEnd.shift]
      omega
  | inr s =>
    rw [Sum.elim_inr]
    cases memberBeats s d <;> simp only [MemberEnd.after, MemberEnd.shift, length_append, length_cons] <;> omega

lemma drop_append_of_params (h : memberBeats .start a = .params k) (c : List Beat) :
    k < a.length ∧ memberBeats .start (a ++ c) = .params k ∧ (a ++ c).drop (k + 1) = a.drop (k + 1) ++ c := by
  have hw := memberBeats_within .start a
  rw [h] at hw
  have hk : k < a.length := hw
  refine ⟨hk, ?_, drop_append_of_le_length hk⟩
  rw [memberBeats_append_of_ne (by simp [h]), h]

lemma memberLength_params (h : memberBeats .start a = .params k) (c : List Beat) :
    memberLength (a ++ c) = k + 1 + signatureLength (a.drop (k + 1) ++ c) := by
  obtain ⟨-, he, hd⟩ := drop_append_of_params h c
  rw [memberLength, he, ← hd]

lemma signatureLength_append (h : signatureBeats a = .runsOn) (c : List Beat) :
    signatureLength (a ++ c) = a.length + signatureLength c := by
  rw [signatureLength, signatureBeats_append_of_runsOn h, signatureLength]
  cases signatureBeats c <;> simp only [SignatureEnd.shift, length_append] <;> omega

lemma signatureLength_cons_of_break
    (hy : (y.breaks && !(y.node.first.isPunct openBrace || y.node.first.continuesExpression))) :
    signatureLength (y :: d) = 0 := by
  rw [signatureLength, signatureBeats, if_pos hy]

lemma signatureLength_cons_pos
    (hy : (y.breaks && !(y.node.first.isPunct openBrace || y.node.first.continuesExpression)) = false) :
    0 < signatureLength (y :: d) := by
  rw [signatureLength, signatureBeats, if_neg (eq_false_iff.1 hy)]
  by_cases hb : y.node.isGroup openBrace
  · rw [if_pos hb]
    exact one_pos
  · rw [if_neg hb]
    by_cases hc : (y.node.isLeaf fun t => t.isPunct ";")
    · rw [if_pos hc]
      exact one_pos
    · rw [if_neg hc]
      cases signatureBeats d <;> exact succ_pos _

lemma MethodBeats.drop_beats (m : MethodBeats) : m.beats.drop (m.head.length + 1) = m.between ++ [m.body] := by
  rw [MethodBeats.beats, ← drop_drop, drop_left, drop_one, tail_cons]

lemma MethodBeats.length_beats (m : MethodBeats) : m.beats.length = m.head.length + 1 + m.between.length + 1 := by
  simp only [MethodBeats.beats, length_append, length_cons, length_nil]
  omega

lemma exists_methodBeats {m : Nat} (h : memberBeats .start a = .params k)
    (hs : signatureBeats (a.drop (k + 1)) = .body m) (hle : k + 1 + m + 1 = a.length) :
    ∃ method : MethodBeats, a = method.beats ∧ method.Marked := by
  obtain ⟨p, rest, hd⟩ : ∃ p rest, a.drop k = p :: rest := exists_cons_of_ne_nil (by rw [Ne, drop_eq_nil_iff]; omega)
  have hr : a.drop (k + 1) = rest := by rw [← drop_drop, hd, drop_one, tail_cons]
  have hl : rest.length = m + 1 := by
    rw [← hr, length_drop]
    omega
  obtain ⟨between, y, rfl⟩ := (eq_nil_or_concat' rest).resolve_left (by rintro rfl; simp at hl)
  have hm : between.length = m := by simpa using hl
  have ht : (a.take k).length = k := by
    rw [length_take]
    omega
  have ha : a = a.take k ++ p :: (between ++ [y]) := by rw [← hd, take_append_drop]
  refine ⟨⟨a.take k, p, between, y⟩, ha, ?_, ?_⟩
  · rw [MethodBeats.beats, ← ha, h, ht]
  · rw [← hr, hs, hm]

lemma shape_of_memberLength (h : memberLength (a ++ c) = a.length) : Shape a ∧ (c ≠ [] → Breakable a) := by
  cases he : memberBeats .start a with
  | broken k =>
    have hw := memberBeats_within .start a
    rw [he] at hw
    rw [memberLength, memberBeats_append_of_ne (by simp [he]), he] at h
    exact absurd h hw.ne
  | closed k =>
    rw [memberLength, memberBeats_append_of_ne (by simp [he]), he] at h
    obtain rfl : k = a.length := h
    exact ⟨.closed he, fun _ ho => by rw [he] at ho; cases ho⟩
  | runsOn =>
    refine ⟨.opened he, fun hc _ => ?_⟩
    obtain ⟨y, c, rfl⟩ := exists_cons_of_ne_nil hc
    cases hb : y.breaks && breakEnds (Midway.start.through a).last (Midway.start.through a).header
        (some y.node.first) with
    | true => exact ⟨y.node.first, (and_eq_true _ _ ▸ hb).2⟩
    | false => exact absurd h (lt_memberLength_opened he hb).ne'
  | params k =>
    refine ⟨?_, fun _ ho => by rw [he] at ho; cases ho⟩
    obtain ⟨hk, -, -⟩ := drop_append_of_params he c
    rw [memberLength_params he] at h
    have hw := signatureBeats_within (a.drop (k + 1))
    have hd : (a.drop (k + 1)).length = a.length - (k + 1) := length_drop
    cases hs : signatureBeats (a.drop (k + 1)) with
    | runsOn => exact .unsigned k he hs hk
    | broken m =>
      rw [signatureLength, signatureBeats_append_of_ne (by simp [hs]), hs] at h
      rw [hs] at hw
      simp only [SignatureEnd.Within] at hw h
      omega
    | closed m =>
      rw [signatureLength, signatureBeats_append_of_ne (by simp [hs]), hs] at h
      exact .declared k m he hs h
    | body m =>
      rw [signatureLength, signatureBeats_append_of_ne (by simp [hs]), hs] at h
      obtain ⟨method, ha, hm⟩ := exists_methodBeats he hs h
      exact .method method ha hm

section

variable (ha : Shape a)

include ha

lemma memberLength_append (hb : d ≠ [] → Breakable a)
    (hd : ∀ y ∈ d.head?, y.breaks ∧ carriesOn a y.node.first = false) : memberLength (a ++ d) = a.length := by
  have hen : ∀ {e : MemberEnd}, memberBeats .start a = e → e ≠ .runsOn → memberBeats .start (a ++ d) = e := by
    rintro e rfl he
    exact memberBeats_append_of_ne he d
  cases ha with
  | opened h =>
    cases d with
    | nil => rw [append_nil, memberLength_of_runsOn h]
    | cons y d =>
      obtain ⟨hy, hc⟩ := hd y rfl
      obtain ⟨t, ht⟩ := hb (cons_ne_nil y d) h
      refine memberLength_opened h ?_
      have hn : y.node.first.continuesExpression = false := by simpa [carriesOn, h] using hc
      rw [hy, breakEnds_congr ht, hn]
      rfl
  | closed h => rw [memberLength, hen h (by simp)]
  | unsigned k h hs hl =>
    have hdr : (a.drop (k + 1)).length = a.length - (k + 1) := length_drop
    rw [memberLength_params h, signatureLength_append hs]
    cases d with
    | nil =>
      have hni : signatureLength [] = 0 := rfl
      omega
    | cons y d =>
      obtain ⟨hy, hc⟩ := hd y rfl
      have hn : (y.node.first.isPunct openBrace || y.node.first.continuesExpression) = false := by
        simpa only [carriesOn, h, hs] using hc
      rw [signatureLength_cons_of_break (by rw [hy, hn]; rfl)]
      omega
  | declared k m h hs hl =>
    rw [memberLength_params h, signatureLength, signatureBeats_append_of_ne (by simp [hs]), hs]
    exact hl
  | method m h hm =>
    rw [h, memberLength_params hm.params, m.drop_beats, signatureLength, signatureBeats_append_of_ne (by simp [hm.body]),
      hm.body, m.length_beats]
    rfl

lemma lt_memberLength_append (hb : Breakable a) (hc : carriesOn a y.node.first) :
    a.length < memberLength (a ++ y :: d) := by
  cases ha with
  | opened h =>
    obtain ⟨t, ht⟩ := hb h
    have ho : y.node.first.continuesExpression := by simpa [carriesOn, h] using hc
    refine lt_memberLength_opened h ?_
    rw [breakEnds_congr ht, ho]
    exact Bool.and_false _
  | closed h => simp [carriesOn, h] at hc
  | unsigned k h hs hl =>
    have hd : (a.drop (k + 1)).length = a.length - (k + 1) := length_drop
    have ho : (y.node.first.isPunct openBrace || y.node.first.continuesExpression) := by
      simpa only [carriesOn, h, hs] using hc
    have hp : 0 < signatureLength (y :: d) := signatureLength_cons_pos (by rw [ho]; exact Bool.and_false _)
    rw [memberLength_params h, signatureLength_append hs]
    omega
  | declared k m h hs hl => simp [carriesOn, h, hs] at hc
  | method m h hm =>
    rw [carriesOn, h, hm.params] at hc
    simp only [m.drop_beats, hm.body] at hc
    cases hc

lemma Shape.not_broken (k : Nat) : memberBeats .start a ≠ .broken k := by
  cases ha with
  | opened h => simp [h]
  | closed h => simp [h]
  | unsigned k h hs hl => simp [h]
  | declared k m h hs hl => simp [h]
  | method m h hm => simp [h, hm.params]

lemma Shape.signature_not_broken (hk : memberBeats .start a = .params k) (m : Nat) :
    signatureBeats (a.drop (k + 1)) ≠ .broken m := by
  cases ha with
  | opened h => simp [h] at hk
  | closed h => simp [h] at hk
  | unsigned j h hs hl | declared j i h hs hl =>
    obtain rfl := MemberEnd.params.inj (h.symm.trans hk)
    simp [hs]
  | method method h hm =>
    subst h
    obtain rfl := MemberEnd.params.inj (hm.params.symm.trans hk)
    simp [method.drop_beats, hm.body]

lemma Shape.memberBeats_eased (hab : Forall₂ Eased a b) : memberBeats .start b = memberBeats .start a :=
  Script.memberBeats_eased hab ha.not_broken

lemma Shape.signatureBeats_eased (hab : Forall₂ Eased a b)
    (hk : memberBeats .start a = .params k) : signatureBeats (b.drop (k + 1)) = signatureBeats (a.drop (k + 1)) :=
  Script.signatureBeats_eased (forall₂_drop (k + 1) hab) (ha.signature_not_broken hk)

lemma Shape.eased (hab : Forall₂ Eased a b) : Shape b := by
  have hbe := ha.memberBeats_eased hab
  have hl := hab.length_eq
  cases id ha with
  | opened h => exact .opened (hbe.trans h)
  | closed h => exact .closed (hbe.trans (h.trans (by rw [hl])))
  | unsigned k h hs hk =>
    exact .unsigned k (hbe.trans h) ((ha.signatureBeats_eased hab h).trans hs) (hl ▸ hk)
  | declared k m h hs hk =>
    exact .declared k m (hbe.trans h) ((ha.signatureBeats_eased hab h).trans hs) (hk.trans hl)
  | method m h hm =>
    subst h
    have hs := ha.signatureBeats_eased hab hm.params
    rw [m.drop_beats, hm.body] at hs
    rw [m.length_beats] at hl
    obtain ⟨m', hb, hm'⟩ := exists_methodBeats (hbe.trans hm.params) hs hl
    exact .method m' hb hm'

lemma Shape.carriesOn_eased (hab : Forall₂ Eased a b) (t : Token) : carriesOn b t = carriesOn a t := by
  rw [carriesOn, ha.memberBeats_eased hab, carriesOn]
  cases h : memberBeats .start a with
  | params k => simp only [ha.signatureBeats_eased hab h]
  | _ => rfl

lemma Shape.breakable_eased (hab : Forall₂ Eased a b) (hbr : Breakable a) : Breakable b := by
  intro hb
  rw [Midway.through_outline (map_outline_of_eased hab)]
  exact hbr (ha.memberBeats_eased hab ▸ hb)

end

lemma MethodBeats.Marked.eased {m m' : MethodBeats} (hm : m.Marked) (h : Forall₂ Eased m.beats m'.beats)
    (hh : m'.head.length = m.head.length) : m'.Marked := by
  have hs : Shape m.beats := .method m rfl hm
  have hsi := hs.signatureBeats_eased h hm.params
  have hl := h.length_eq
  rw [m.length_beats, m'.length_beats] at hl
  rw [← hh, m'.drop_beats, hh, m.drop_beats, hm.body] at hsi
  refine ⟨(hs.memberBeats_eased h).trans (by rw [hm.params, hh]), hsi.trans ?_⟩
  congr 1
  omega

end Parts

end CustomElement.Script
