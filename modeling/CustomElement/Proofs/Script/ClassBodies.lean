import CustomElement.Proofs.Script.Members

/-!
# Class bodies beat by beat

The members of a class body are read off its beats (`memberChunks`, `cutMembers_nodesOf`).
-/

namespace CustomElement.Script

open List Text

variable {es : List Entry}

section Cuts

variable {xs a c : List Beat} {tail : List Node}

lemma nodesBefore_append (hs : List Beat) (p : Beat) (r : List Beat) :
    nodesBefore (hs ++ p :: r) hs.length = nodesOf hs ++ p.before := by
  simp [nodesBefore]

lemma nodesOf_append_cons (hs : List Beat) (p : Beat) (rest : List Beat) :
    nodesOf (hs ++ p :: rest) = (nodesOf hs ++ p.before) ++ p.node :: nodesOf rest := by
  simp [Beat.nodes, Beat.before]

lemma memberEnd_start (hx : ∀ x ∈ xs, x.Valid) (ht : IsTail tail) :
    memberEnd .outside false none none (nodesOf xs ++ tail) = (memberBeats .start xs).inNodes xs :=
  memberEnd_nodesOf hx ht .start

lemma exists_params {k : Nat} (h : memberBeats .start xs = .params k) :
    ∃ hs p rest, xs = hs ++ p :: rest ∧ hs.length = k ∧ xs.drop (k + 1) = rest := by
  have hw := memberBeats_within .start xs
  rw [h] at hw
  have hk : k < xs.length := hw
  refine ⟨xs.take k, xs[k], xs.drop (k + 1), ?_, ?_, rfl⟩
  · rw [← drop_eq_getElem_cons hk, take_append_drop]
  · rw [length_take]
    omega

lemma exists_body {m : Nat} (h : signatureBeats xs = .body m) : ∃ bs y r, xs = bs ++ y :: r ∧ bs.length = m := by
  have hw := signatureBeats_within xs
  rw [h] at hw
  have hm : m < xs.length := hw
  refine ⟨xs.take m, xs[m], xs.drop (m + 1), ?_, ?_⟩
  · rw [← drop_eq_getElem_cons hm, take_append_drop]
  · rw [length_take]
    omega

lemma length_readMember (hxs : ∀ x ∈ xs, x.Valid) (ht : IsTail tail) :
    (readMember (nodesOf xs ++ tail)).2 = (nodesOf (xs.take (memberLength xs))).length := by
  have hc : ∀ n, trailingComment ((nodesOf xs ++ tail).drop n) = 0 := fun n =>
    trailingComment_eq_zero fun m hm => not_isComment_nodesOf hxs ht m (mem_of_mem_drop hm)
  unfold readMember memberLength
  rw [memberEnd_start hxs ht]
  cases h : memberBeats .start xs with
  | broken k => rfl
  | closed k => simp only [MemberEnd.inNodes, hc, Nat.add_zero]
  | runsOn => simp only [MemberEnd.inNodes, trimNodes_nodesOf hxs ht, take_length]
  | params k =>
    obtain ⟨hs, p, r, rfl, rfl, hd⟩ := exists_params h
    have hr : ∀ x ∈ r, x.Valid := fun x hx => hxs x (by simp [hx])
    have hn : nodesOf (hs ++ p :: r) ++ tail = (nodesOf hs ++ p.before) ++ p.node :: (nodesOf r ++ tail) := by
      rw [nodesOf_append_cons, append_assoc, cons_append]
    have hta : ∀ j, (nodesOf ((hs ++ p :: r).take (hs.length + 1 + j))).length =
        (nodesOf hs ++ p.before).length + 1 + (nodesOf (r.take j)).length := by
      intro j
      rw [add_assoc, take_length_add_append, add_comm 1 j, take_succ_cons, nodesOf_append, nodesOf_cons]
      simp only [length_append, p.length_nodes]
      omega
    have hf : ((nodesOf hs ++ p.before) ++ p.node :: (nodesOf r ++ tail)).drop (nodesOf hs ++ p.before).length =
        p.node :: (nodesOf r ++ tail) := drop_left
    simp only [MemberEnd.inNodes, nodesBefore_append, hd, hta, hc, trimNodes_nodesOf hxs ht]
    simp only [hn, hf, signatureEnd_nodesOf hr ht]
    have ha : (nodesOf (hs ++ p :: r)).length = (nodesOf hs ++ p.before).length + 1 + (nodesOf r).length := by
      rw [nodesOf_append_cons]
      simp only [length_append, length_cons]
      omega
    unfold signatureLength
    cases hsi : signatureBeats r with
    | broken m => rfl
    | closed m => rfl
    | runsOn =>
      by_cases hl : hasNewline tail
      · simp only [SignatureEnd.inNodes, hl, if_true, take_length]
      · simp only [SignatureEnd.inNodes, hl, false_eq_true, if_false, take_length]
        exact ha
    | body m =>
      obtain ⟨bs, y, more, rfl, rfl⟩ := exists_body hsi
      have hb : (nodesOf (bs ++ y :: more) ++ tail).drop (nodesOf bs ++ y.before).length =
          y.node :: (nodesOf more ++ tail) := by
        rw [nodesOf_append_cons, append_assoc, drop_left]
        rfl
      have hco : (nodesOf ((bs ++ y :: more).take (bs.length + 1))).length = (nodesOf bs ++ y.before).length + 1 := by
        rw [take_length_add_append, take_succ_cons, take_zero, nodesOf_append_cons, length_append]
        rfl
      simp only [SignatureEnd.inNodes, nodesBefore_append, hb, hco]
      omega

lemma methodCut?_beats {m : MethodBeats} (hm : m.Marked) (hxs : ∀ x ∈ m.beats ++ c, x.Valid) (ht : IsTail tail) :
    methodCut? (nodesOf (m.beats ++ c) ++ tail) = some (m.cut, nodesOf c ++ tail) := by
  obtain ⟨-, he, -⟩ := drop_append_of_params hm.params c
  have hs : signatureBeats (m.between ++ m.body :: c) = .body m.between.length := by
    have ha := signatureBeats_append_of_ne (a := m.between ++ [m.body]) (by simp [hm.body]) c
    rwa [append_assoc, singleton_append, hm.body] at ha
  have hb : m.beats ++ c = m.head ++ m.params :: (m.between ++ m.body :: c) := by simp [MethodBeats.beats]
  rw [hb] at hxs he ⊢
  have hr : ∀ x ∈ m.between ++ m.body :: c, x.Valid := fun x hx =>
    hxs x (mem_append_right _ (mem_cons_of_mem _ hx))
  have hn : nodesOf (m.head ++ m.params :: (m.between ++ m.body :: c)) ++ tail =
      (nodesOf m.head ++ m.params.before) ++ m.params.node :: (nodesOf (m.between ++ m.body :: c) ++ tail) := by
    rw [nodesOf_append_cons, append_assoc, cons_append]
  have hin : nodesOf (m.between ++ m.body :: c) ++ tail =
      (nodesOf m.between ++ m.body.before) ++ m.body.node :: (nodesOf c ++ tail) := by
    rw [nodesOf_append_cons, append_assoc, cons_append]
  unfold methodCut?
  rw [memberEnd_start hxs ht, he]
  simp only [MemberEnd.inNodes, nodesBefore_append]
  rw [hn, drop_left, take_left]
  simp only [signatureEnd_nodesOf hr ht, hs, SignatureEnd.inNodes, nodesBefore_append]
  rw [hin, drop_left, take_left]
  rfl

lemma methodCut?_eq_none (hxs : ∀ x ∈ xs, x.Valid) (ht : IsTail tail)
    (h : ∀ k m, memberBeats .start xs = .params k → signatureBeats (xs.drop (k + 1)) ≠ .body m) :
    methodCut? (nodesOf xs ++ tail) = none := by
  unfold methodCut?
  rw [memberEnd_start hxs ht]
  cases he : memberBeats .start xs with
  | params k =>
    have hn := h k
    obtain ⟨hs, p, r, rfl, rfl, hd⟩ := exists_params he
    have hr : ∀ x ∈ r, x.Valid := fun x hx => hxs x (by simp [hx])
    rw [hd] at hn
    simp only [MemberEnd.inNodes, nodesBefore_append]
    rw [nodesOf_append_cons, append_assoc, drop_left]
    simp only [cons_append, signatureEnd_nodesOf hr ht]
    cases hsi : signatureBeats r with
    | body m => exact absurd hsi (hn m he)
    | runsOn => by_cases hl : hasNewline tail <;> simp [SignatureEnd.inNodes, hl]
    | _ => rfl
  | _ => rfl

def Chunk.memberCut (c : Chunk) : MemberCut := cutMember c.blankBefore (nodesOf c.beats)

lemma isTail_nil : IsTail [] := ⟨by simp, by simp⟩

lemma cutMember_method {m : MethodBeats} (hm : m.Marked) (hxs : ∀ x ∈ m.beats ++ c, x.Valid) (ht : IsTail tail)
    (b : Bool) : cutMember b (nodesOf (m.beats ++ c) ++ tail) = .method b m.cut [] := by
  have hc : trailingComment (nodesOf c ++ tail) = 0 :=
    trailingComment_eq_zero (not_isComment_nodesOf (fun x hx => hxs x (mem_append_right _ hx)) ht)
  rw [cutMember, methodCut?_beats hm hxs ht]
  simp only [hc, take_zero]

lemma cutMember_other (hx : ∀ x ∈ xs, x.Valid) (ht : IsTail tail)
    (h : ∀ k m, memberBeats .start xs = .params k → signatureBeats (xs.drop (k + 1)) ≠ .body m) (b : Bool) :
    cutMember b (nodesOf xs ++ tail) = .other b (nodesOf (xs.take (memberLength xs))) := by
  rw [cutMember, methodCut?_eq_none hx ht h]
  simp only [length_readMember hx ht, take_nodesOf]

lemma cutMember_append (h : memberLength (a ++ c) = a.length) (hxs : ∀ x ∈ a ++ c, x.Valid) (ht : IsTail tail)
    (b : Bool) : cutMember b (nodesOf (a ++ c) ++ tail) = cutMember b (nodesOf a) := by
  obtain ⟨hsh, -⟩ := shape_of_memberLength h
  have ha : ∀ x ∈ a, x.Valid := fun x hx => hxs x (mem_append_left c hx)
  have hal : memberLength a = a.length := by
    have hme := memberLength_append (d := []) hsh (by simp) (by simp)
    rwa [append_nil] at hme
  -- Unless it is a method.
  have ho : (∀ k m, memberBeats .start (a ++ c) = .params k → signatureBeats ((a ++ c).drop (k + 1)) ≠ .body m) →
      (∀ k m, memberBeats .start a = .params k → signatureBeats (a.drop (k + 1)) ≠ .body m) →
        cutMember b (nodesOf (a ++ c) ++ tail) = cutMember b (nodesOf a) := by
    intro hjo how
    have hlf := cutMember_other hxs ht hjo b
    have hr := cutMember_other ha isTail_nil how b
    rw [append_nil, hal, take_length] at hr
    rw [hlf, hr, h, take_left]
  have hl : ∀ k m, memberBeats .start (a ++ c) = .params k → signatureBeats ((a ++ c).drop (k + 1)) = .body m →
      k + 1 + m + 1 = a.length := by
    intro k m hk hm
    rw [memberLength, hk] at h
    simp only [signatureLength, hm] at h
    omega
  cases hsh with
  | opened he =>
    refine ho (fun k m hk hm => ?_) (fun k m hk => by simp [he] at hk)
    have hle := hl k m hk hm
    rw [memberBeats_append_of_runsOn he] at hk
    cases hmo : memberBeats (Midway.start.through a) c <;> rw [hmo] at hk <;> simp [MemberEnd.shift] at hk
    omega
  | closed he =>
    refine ho (fun k m hk => ?_) (fun k m hk => by simp [he] at hk)
    rw [memberBeats_append_of_ne (by simp [he]), he] at hk
    cases hk
  | unsigned j he hs hj =>
    obtain ⟨-, hjo, hd⟩ := drop_append_of_params he c
    refine ho (fun k m hk hm => ?_) (fun k m hk => ?_)
    · obtain rfl := MemberEnd.params.inj (hjo.symm.trans hk)
      have hle := hl j m hk hm
      rw [hd, signatureBeats_append_of_runsOn hs, length_drop] at hm
      cases hmo : signatureBeats c <;> rw [hmo] at hm <;> simp [SignatureEnd.shift] at hm
      omega
    · obtain rfl := MemberEnd.params.inj (he.symm.trans hk)
      simp [hs]
  | declared j i he hs hj =>
    obtain ⟨-, hjo, hd⟩ := drop_append_of_params he c
    refine ho (fun k m hk => ?_) (fun k m hk => ?_)
    · obtain rfl := MemberEnd.params.inj (hjo.symm.trans hk)
      rw [hd, signatureBeats_append_of_ne (by simp [hs]), hs]
      simp
    · obtain rfl := MemberEnd.params.inj (he.symm.trans hk)
      simp [hs]
  | method m ha' hm =>
    subst ha'
    have hlf := cutMember_method hm hxs ht b
    have hr := cutMember_method (c := []) hm (by simpa using ha) isTail_nil b
    rw [append_nil, append_nil] at hr
    rw [hlf, hr]

end Cuts

def Beat.isSemicolon (x : Beat) : Bool := x.node.isLeaf fun t => t.isPunct ";"

/-- The members among a list of beats, without lone semicolons and the blanks before members. -/
def memberChunks (blank : Bool) (xs : List Beat) : List Chunk :=
  match xs with
  | [] => []
  | x :: xs =>
    if x.isSemicolon then memberChunks (blank || x.spaced) xs
    else
      let length := memberLength (x :: xs)
      ⟨blank || x.spaced, (x.flush :: xs).take length⟩ :: memberChunks false (xs.drop (length - 1))
termination_by xs.length

lemma memberBeats_flush (x : Beat) (xs : List Beat) :
    memberBeats .start (x.flush :: xs) = memberBeats .start (x :: xs) := by
  have hn : ∀ t, breakEnds Midway.start.last Midway.start.header (some t) = false := fun _ => rfl
  simp only [memberBeats, hn, Bool.and_false, false_eq_true, if_false]
  rfl

lemma memberLength_flush (x : Beat) (xs : List Beat) : memberLength (x.flush :: xs) = memberLength (x :: xs) := by
  rw [memberLength, memberBeats_flush, memberLength]
  rfl

lemma exists_memberCut (x : Beat) (xs : List Beat) : ∃ a, (x.flush :: xs).take (memberLength (x :: xs)) = x.flush :: a ∧
      x.flush :: xs = (x.flush :: a) ++ xs.drop (memberLength (x :: xs) - 1) ∧
      memberLength ((x.flush :: a) ++ xs.drop (memberLength (x :: xs) - 1)) = (x.flush :: a).length := by
  have hp := memberLength_pos x xs
  have hl := memberLength_le (x :: xs)
  obtain ⟨k, hk⟩ := Nat.exists_eq_succ_of_ne_zero hp.ne'
  rw [hk] at hl ⊢
  have hs : x.flush :: xs = (x.flush :: xs.take k) ++ xs.drop k := by
    rw [cons_append, take_append_drop]
  refine ⟨xs.take k, rfl, hs, ?_⟩
  rw [Nat.succ_sub_one, ← hs, memberLength_flush, hk, length_cons, length_take]
  simp only [length_cons] at hl
  omega

lemma cutMembers_tail {tail : List Node} (ht : IsTail tail) (b : Bool) :
    (cutMembers b tail).filter MemberCut.isMember = [] := by
  obtain ⟨hb, hs⟩ := ht
  rcases tail with _ | ⟨n, _ | ⟨m, tail⟩⟩
  · rw [cutMembers, filter_nil]
  · rw [cutMembers, if_pos (hb n mem_cons_self), cutMembers]
    rfl
  · simp at hs

lemma Beat.Valid.not_isBlank {x : Beat} (h : x.Valid) : x.node.isBlank = false := by
  cases hb : x.node.isBlank with
  | false => rfl
  | true => exact absurd h.node (by simp [isTrivia_of_isBlank hb])

lemma isMember_cutMember (b : Bool) (ns : List Node) : (cutMember b ns).isMember := by
  unfold cutMember
  split <;> rfl

lemma cutMembers_beat {x : Beat} (hx : x.Valid) (b : Bool) (nodes : List Node) :
    (cutMembers b (x.nodes ++ nodes)).filter MemberCut.isMember =
      (cutMembers (b || x.spaced) (x.node :: nodes)).filter MemberCut.isMember := by
  cases hg : x.gap with
  | none => simp [Beat.nodes, Beat.spaced, hg]
  | some t =>
    have hs : x.spaced = decide (2 ≤ t.newlines) := by simp [Beat.spaced, hg]
    have ht : (Node.leaf t).isBlank := by simp [Node.isBlank, isLeaf, hx.gap t hg]
    have hn : x.nodes ++ nodes = .leaf t :: x.node :: nodes := by simp [Beat.nodes, hg]
    rw [hn, cutMembers, if_pos ht, filter_cons_of_neg (by simp [MemberCut.isMember]), hs]
    rfl

lemma cutMembers_nodesOf {xs : List Beat} {tail : List Node} (hxs : ∀ x ∈ xs, x.Valid) (ht : IsTail tail) (b : Bool) :
    (cutMembers b (nodesOf xs ++ tail)).filter MemberCut.isMember = (memberChunks b xs).map Chunk.memberCut := by
  fun_induction memberChunks b xs with
  | case1 => exact cutMembers_tail ht _
  | case2 b x xs hs ih =>
    obtain ⟨hx, hxs⟩ := forall_mem_cons.1 hxs
    rw [Beat.isSemicolon] at hs
    rw [← ih hxs, nodesOf_cons, append_assoc, cutMembers_beat hx, cutMembers, hx.not_isBlank, if_neg (by simp),
      if_pos hs, filter_cons_of_neg (by simp [MemberCut.isMember])]
  | case3 b x xs hs len ih =>
    obtain ⟨hx, hxs⟩ := forall_mem_cons.1 hxs
    rw [Beat.isSemicolon] at hs
    have hf : ∀ y ∈ x.flush :: xs, y.Valid := forall_mem_cons.2 ⟨hx.flush, hxs⟩
    obtain ⟨a, hta, hsp, hm⟩ := exists_memberCut x xs
    have hr := ih fun y hy => hxs y (mem_of_mem_drop hy)
    have hc : x.node :: (nodesOf xs ++ tail) = nodesOf (x.flush :: xs) ++ tail := rfl
    have hre : (readMember (x.node :: (nodesOf xs ++ tail))).2 = (nodesOf (x.flush :: a)).length := by
      rw [hc, length_readMember hf ht, memberLength_flush, hta]
    have hd : (nodesOf xs ++ tail).drop ((readMember (x.node :: (nodesOf xs ++ tail))).2 - 1) =
        nodesOf (xs.drop (len - 1)) ++ tail := by
      have hal : (x.node :: (nodesOf xs ++ tail)).drop (nodesOf (x.flush :: a)).length =
          nodesOf (xs.drop (len - 1)) ++ tail := by
        rw [hc, hsp, nodesOf_append, append_assoc, drop_left]
      have ho : (nodesOf (x.flush :: a)).length = (nodesOf a).length + 1 := by simp [Beat.nodes, Beat.flush]
      rw [ho, drop_succ_cons] at hal
      rw [hre, ho, Nat.add_sub_cancel, hal]
    have hfi : cutMember (b || x.spaced) (x.node :: (nodesOf xs ++ tail)) =
        Chunk.memberCut ⟨b || x.spaced, (x.flush :: xs).take len⟩ := by
      have ha := cutMember_append hm (hsp ▸ hf) ht (b || x.spaced)
      rw [← hsp] at ha
      rw [hc, ha, Chunk.memberCut, hta]
    rw [nodesOf_cons, append_assoc, cutMembers_beat hx, cutMembers, hx.not_isBlank, if_neg (by simp),
      if_neg hs, filter_cons_of_pos (isMember_cutMember _ _), hd, hr, hfi, map_cons]

lemma exists_shape {b : Bool} {xs : List Beat} :
    ∀ c ∈ memberChunks b xs, Shape c.beats ∧ ∀ x ∈ c.beats.head?, x.isSemicolon = false := by
  fun_induction memberChunks b xs with
  | case1 => simp
  | case2 b x xs hs ih => exact ih
  | case3 b x xs hs len ih =>
    obtain ⟨a, ht, -, hm⟩ := exists_memberCut x xs
    refine forall_mem_cons.2 ⟨⟨?_, ?_⟩, ih⟩
    · rw [ht]
      exact (shape_of_memberLength hm).1
    · rw [ht]
      simpa [Beat.isSemicolon, Beat.flush] using hs

lemma isChain_breakable (b : Bool) (xs : List Beat) : (memberChunks b xs).IsChain fun c _ => Breakable c.beats := by
  fun_induction memberChunks b xs with
  | case1 => exact .nil
  | case2 b x xs hs ih => exact ih
  | case3 b x xs hs len ih =>
    obtain ⟨a, ht, -, hm⟩ := exists_memberCut x xs
    refine isChain_cons.2 ⟨fun c hc => ?_, ih⟩
    rw [ht]
    refine (shape_of_memberLength hm).2 fun hni => ?_
    have hn : xs.drop (len - 1) = [] := hni
    rw [hn, memberChunks] at hc
    cases hc

structure Entry.Member (e : Entry) : Prop where
  shape : Shape e.body
  node : (Beat.mk none e.node).isSemicolon = false

lemma memberChunks_cons {e : Entry} (he : e.Member) (r : List Beat) {more later : List Beat}
    (hr : r = more ++ later) (hl : memberLength (e.body ++ r) = (e.body ++ more).length) :
    memberChunks false (e.beats ++ r) = ⟨e.gap.any fun t => 2 ≤ t.newlines, e.body ++ more⟩ :: memberChunks false later := by
  have hb : e.beats ++ r = ⟨e.gap, e.node⟩ :: (e.more ++ r) := rfl
  have hf : memberLength (⟨e.gap, e.node⟩ :: (e.more ++ r)) = (e.more ++ more).length + 1 := by
    rw [← memberLength_flush]
    exact hl
  have hn : ¬ (Beat.mk e.gap e.node).isSemicolon := by
    rw [Bool.not_eq_true]
    exact he.node
  rw [hb, memberChunks, if_neg hn, hf]
  simp only [hr, ← append_assoc, take_succ_cons, take_left, Nat.add_sub_cancel, drop_left]
  rfl

structure Stacked (es : List Entry) : Prop where
  member : ∀ e ∈ es, e.Member
  breakable : es.IsChain fun e _ => Breakable e.body
  gap : ∀ e ∈ es.tail, e.gap.any Token.hasNewline = true

def Apart (es : List Entry) : Prop := es.IsChain fun e e' => carriesOn e.body e'.node.first = false

lemma Stacked.tail {e : Entry} (h : Stacked (e :: es)) : Stacked es :=
  ⟨fun e' he' => h.member e' (mem_cons_of_mem e he'), (isChain_cons.1 h.breakable).2,
    fun e' he' => h.gap e' (mem_of_mem_tail he')⟩

/-- **Members put one below the other are read as these members**, if none is carried on by the next one. -/
lemma memberChunks_entries (h : Stacked es) (ha : Apart es) :
    memberChunks false (es.flatMap Entry.beats) = es.map Entry.chunk := by
  induction es with
  | nil => rw [flatMap_nil, memberChunks, map_nil]
  | cons e es ih =>
    have he := h.member e mem_cons_self
    have hl : memberLength (e.body ++ es.flatMap Entry.beats) = (e.body ++ []).length := by
      rw [append_nil]
      cases es with
      | nil => exact memberLength_append he.shape (fun hn => absurd rfl hn) (by simp)
      | cons e' es =>
        refine memberLength_append he.shape (fun _ => (isChain_cons_cons.1 h.breakable).1) fun y hy => ?_
        obtain rfl : ⟨e'.gap, e'.node⟩ = y := some.inj hy
        exact ⟨h.gap e' mem_cons_self, (isChain_cons_cons.1 ha).1⟩
    rw [flatMap_cons, memberChunks_cons he _ (nil_append _).symm hl, ih h.tail (isChain_cons.1 ha).2, append_nil]
    rfl

lemma exists_more {a r : List Beat} (h : a.length < memberLength (a ++ r)) :
    ∃ more later, r = more ++ later ∧ more ≠ [] ∧ memberLength (a ++ r) = (a ++ more).length := by
  have hl := memberLength_le (a ++ r)
  rw [length_append] at hl
  have hm : (r.take (memberLength (a ++ r) - a.length)).length = memberLength (a ++ r) - a.length := by
    rw [length_take]
    omega
  refine ⟨_, _, (take_append_drop (memberLength (a ++ r) - a.length) r).symm, ?_, ?_⟩
  · rw [← length_pos_iff, hm]
    omega
  · rw [length_append, hm]
    omega

lemma memberChunks_carried (h : Stacked es) (hn : ¬ Apart es) :
    ∃ pre e post t more later b rest, es = pre ++ e :: post ∧ carriesOn e.body t ∧ more ≠ [] ∧
      post.flatMap Entry.beats = more ++ later ∧
      memberChunks false (es.flatMap Entry.beats) = pre.map Entry.chunk ++ ⟨b, e.body ++ more⟩ :: rest := by
  induction es with
  | nil => exact absurd .nil hn
  | cons e es ih =>
    have he := h.member e mem_cons_self
    cases es with
    | nil => exact absurd (.singleton e) hn
    | cons e' es =>
      have hb := (isChain_cons_cons.1 h.breakable).1
      cases hc : carriesOn e.body e'.node.first with
      | true =>
        obtain ⟨more, later, hs, hne, hl⟩ :=
          exists_more (lt_memberLength_append (y := ⟨e'.gap, e'.node⟩) (d := e'.more ++ es.flatMap Entry.beats)
            he.shape hb hc)
        exact ⟨[], e, e' :: es, e'.node.first, more, later, _, _, rfl, hc, hne, hs, memberChunks_cons he _ hs hl⟩
      | false =>
        have hr : ¬ Apart (e' :: es) := fun hr => hn (isChain_cons_cons.2 ⟨hc, hr⟩)
        obtain ⟨pre, e'', post, t, more, later, b, rest, hs, ho, hne, hm, hre⟩ := ih h.tail hr
        refine ⟨e :: pre, e'', post, t, more, later, b, rest, by rw [hs]; rfl, ho, hne, hm, ?_⟩
        have hl : memberLength (e.body ++ (e' :: es).flatMap Entry.beats) = (e.body ++ []).length := by
          rw [append_nil]
          refine memberLength_append he.shape (fun _ => hb) fun y hy => ?_
          obtain rfl : ⟨e'.gap, e'.node⟩ = y := some.inj hy
          exact ⟨h.gap e' mem_cons_self, hc⟩
        rw [flatMap_cons, memberChunks_cons he _ (nil_append _).symm hl, hre, append_nil]
        rfl

end CustomElement.Script
