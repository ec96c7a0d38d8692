import CustomElement.Proofs.Script.Depth
import CustomElement.Proofs.Script.Fusion

/-!
# Edits between tokens

Every edit of the walk starts and stops at an edge of a token, or at the ends of an expression in a template literal
(`Called.ends`), so it takes a token whole or leaves it whole (`typeEdits_whole`). With the checked walk this makes a
checked eraser, which never gets lost (`eraseTypes_checked`).
-/

namespace CustomElement.Script

open List Text

lemma exists_of_mapM {ε α β : Type} {f : α → Except ε β} {as : List α} {bs : List β} (h : as.mapM f = .ok bs) :
    ∀ b ∈ bs, ∃ a ∈ as, f a = .ok b := by
  induction as generalizing bs with
  | nil =>
    cases h
    simp
  | cons a as ih =>
    rw [mapM_cons] at h
    obtain ⟨b, hb, h⟩ := bind_eq_ok.1 h
    obtain ⟨bs, hbs, h⟩ := bind_eq_ok.1 h
    cases h
    refine forall_mem_cons.2 ⟨⟨a, mem_cons_self, hb⟩, fun b' hb' => ?_⟩
    obtain ⟨a', ha', h⟩ := ih hbs b' hb'
    exact ⟨a', mem_cons_of_mem _ ha', h⟩

namespace Stream

section Ends

variable (s : Stream) (e : Edit)

def Substitutes : Prop :=
  ∃ j < s.size, (s.tok j).kind = .template ∧ ∃ subs, templateSubstitutions (s.tok j).text = .ok subs ∧
    ∃ sub ∈ subs, e.start = (s.tok j).start + sub.span.start ∧ e.stop = (s.tok j).start + sub.span.stop

def Declares : Prop :=
  ∃ first last, s.Enumerates first last ∧ e.start = (s.tok first).start ∧ e.stop = (s.tok last).stop

end Ends

variable {source : String} {s : Stream} {erase : String → Except Fault String} {e : Edit} {edits : List Edit}

lemma substitutes_of_mem {j : Nat} (hk : (s.tok j).kind = .template)
    (h : substitutionEdits erase (s.tok j) = .ok edits) (he : e ∈ edits) : s.Substitutes e := by
  obtain ⟨subs, hsu, h⟩ := bind_eq_ok.1 h
  obtain ⟨ess, hm, h⟩ := bind_eq_ok.1 h
  cases h
  obtain ⟨l, hl, he⟩ := mem_flatten.1 he
  obtain ⟨sub, hsub, hl⟩ := exists_of_mapM hm l hl
  obtain ⟨erased, -, hl⟩ := bind_eq_ok.1 hl
  cases hl
  split at he
  · cases he
  · cases mem_singleton.1 he
    exact ⟨j, lt_size_of_kind (by rw [hk]; decide), hk, subs, hsu, sub, hsub, rfl, rfl⟩

lemma Substitutes.within (h : s.Substitutes e) : ∃ j < s.size, (s.tok j).kind = .template ∧ ∃ m n,
    IsBoundary (s.tok j).text.toList m ∧ IsBoundary (s.tok j).text.toList n ∧ m ≤ n ∧
      n ≤ byteLength (s.tok j).text.toList ∧ e.start = (s.tok j).start + m ∧ e.stop = (s.tok j).start + n := by
  obtain ⟨j, hj, hk, subs, hsu, sub, hsub, hst, hso⟩ := h
  obtain ⟨fr, code, back, ht, -, -, hsp⟩ := exists_of_templateSubstitutions hsu sub hsub
  have ht' : (s.tok j).text.toList = (fr ++ ['$', '{'] ++ code) ++ '}' :: back := by rw [ht, append_assoc _ code]
  rw [hsp] at hst hso
  refine ⟨j, hj, hk, _, _, ⟨_, _, ht, rfl⟩, ⟨_, _, ht', byteLength_append _ _⟩, Nat.le_add_right _ _, ?_, hst, hso⟩
  rw [ht']
  simp only [byteLength_append]
  exact Nat.le_add_right _ _

section

variable (hs : Stream.read source = .ok s)

include hs

lemma Enumerates.le {first last : Nat} (h : s.Enumerates first last) : first ≤ last := by
  obtain ⟨k, hk, -, -, -, hb, hp⟩ := h.keyword
  obtain ⟨p, hp', hm⟩ := exists_mates hs (isOpener_of_is hs hb (by decide))
  obtain rfl : p = last := by simpa [hp] using hp'.symm
  have hl := (lt_of_mates hm).1
  omega

lemma Called.ends (h : s.Called erase e) : e.start ≤ e.stop ∧ (s.IsEdge e.start ∧ s.IsEdge e.stop ∨ s.Substitutes e) := by
  cases h with
  | cut h => exact ⟨h.lt.le, .inl ⟨h.start, h.stop⟩⟩
  | @enumeration first last h x =>
    have hl := h.le hs
    have hf : first < s.size := hl.trans_lt h.lt
    exact ⟨(start_lt_stop_of_le hs hf hl).le, .inl ⟨⟨first, hf, .inl rfl⟩, last, h.lt, .inr rfl⟩⟩
  | @property _ _ i _ _ _ _ hi => exact ⟨le_rfl, .inl ⟨⟨i, hi, .inr rfl⟩, i, hi, .inr rfl⟩⟩
  | substitution hk _ hed he =>
    have hsu := substitutes_of_mem hk hed he
    obtain ⟨j, -, -, m, n, -, -, hmn, -, hst, hso⟩ := hsu.within
    exact ⟨by omega, .inr hsu⟩

lemma Called.fits (h : s.Called erase e) : e.Fits s.source.toList := by
  obtain ⟨-, ⟨hst, hso⟩ | hsu⟩ := h.ends hs
  · exact ⟨hst.isBoundary hs, hso.isBoundary hs⟩
  · obtain ⟨j, hj, -, m, n, hm, hn, -, -, hst, hso⟩ := hsu.within
    rw [Edit.Fits, hst, hso]
    exact ⟨boundary_tok hs hj hm, boundary_tok hs hj hn⟩

lemma IsEdge.apart {n i : Nat} (hn : s.IsEdge n) (hi : i < s.size) : n ≤ (s.tok i).start ∨ (s.tok i).stop ≤ n := by
  obtain ⟨k, hk, hn⟩ := hn
  have hl := start_lt_stop_tok hs hk
  rcases Nat.lt_trichotomy k i with h | rfl | h
  · have ho := stop_le_start hs h
    omega
  · omega
  · have ho := stop_le_start hs h
    omega

lemma covers_of_edges {i : Nat} (hi : i < s.size) (hst : s.IsEdge e.start)
    (hso : s.IsEdge e.stop) : (s.tok i).stop ≤ e.start ∨ e.stop ≤ (s.tok i).start ∨ e.covers (s.tok i) := by
  have ha := hst.apart hs hi
  have ha' := hso.apart hs hi
  simp only [Edit.covers, and_eq_true, decide_eq_true_eq]
  omega

lemma Called.whole (h : s.Called erase e) {i : Nat} (hi : i < s.size)
    (hk : (s.tok i).kind ≠ .template) : (s.tok i).stop ≤ e.start ∨ e.stop ≤ (s.tok i).start ∨
      e.covers (s.tok i) ∧ (e.text = "" ∨ s.Declares e) := by
  have hl := start_lt_stop_tok hs hi
  cases h with
  | cut h => exact (covers_of_edges hs hi h.start h.stop).imp_right (Or.imp_right fun hc => ⟨hc, .inl h.text⟩)
  | @enumeration first last h x =>
    have hc := covers_of_edges hs hi (e := ⟨(s.tok first).start, (s.tok last).stop, x⟩)
      ⟨first, (h.le hs).trans_lt h.lt, .inl rfl⟩ ⟨last, h.lt, .inr rfl⟩
    exact hc.imp_right (Or.imp_right fun hc => ⟨hc, .inr ⟨first, last, h, rfl, rfl⟩⟩)
  | @property _ _ k _ _ _ _ hk =>
    have ha := IsEdge.apart hs ⟨k, hk, .inr rfl⟩ hi
    exact ha.symm.imp_right .inl
  | substitution hkj _ hed he =>
    obtain ⟨j, -, hj, m, n, -, -, hmn, hle, hst, hso⟩ := (substitutes_of_mem hkj hed he).within
    have hji : j ≠ i := fun heq => hk (heq ▸ hj)
    have hsp : (s.tok j).stop = (s.tok j).start + byteLength (s.tok j).text.toList := rfl
    rcases Nat.lt_or_gt_of_ne hji with hlt | hgt
    · have ho := stop_le_start hs hlt
      omega
    · have ho := stop_le_start hs hgt
      omega

end

end Stream

/-- The result of the edits from the byte `pos` on, if the text can be cut where they start and stop. -/
def applyEditsFrom? (cs : List Char) (pos : Nat) : List Edit → Option (List Char)
  | [] => slice? cs pos (byteLength cs)
  | e :: edits => do
    let start := max e.start pos
    let kept ← slice? cs pos start
    let rest ← applyEditsFrom? cs (max e.stop start) edits
    return kept ++ e.text.toList ++ rest

lemma applyEditsFrom?_eq {cs : List Char} {pos : Nat} {edits : List Edit} (hp : IsBoundary cs pos)
    (h : ∀ e ∈ edits, e.Fits cs) :
    applyEditsFrom? cs pos edits = some (applyEditsFrom pos (dropBytes pos cs) edits) := by
  induction edits generalizing pos with
  | nil =>
    obtain ⟨a, b, rfl, rfl⟩ := hp
    have hs := slice?_middle a b []
    rw [append_nil] at hs
    rw [applyEditsFrom?, applyEditsFrom, dropBytes_byteLength, byteLength_append, hs]
  | cons e edits ih =>
    obtain ⟨⟨hst, hso⟩, he⟩ := forall_mem_cons.1 h
    have hst := hst.max hp
    have hso := hso.max hst
    obtain ⟨a, b, c, rfl, rfl, hb⟩ := hp.exists_append hso ((le_max_right _ _).trans (le_max_right _ _))
    have hd : dropBytes (max e.stop (max e.start (byteLength a)) - byteLength a) (b ++ c) = c := by
      rw [← hb, Nat.add_sub_cancel_left, dropBytes_byteLength]
    have hd' : dropBytes (max e.stop (max e.start (byteLength a))) (a ++ (b ++ c)) = c := by
      rw [← hb, ← byteLength_append, ← append_assoc, dropBytes_byteLength]
    rw [applyEditsFrom?, applyEditsFrom, hp.slice? hst (le_max_right _ _), ih hso he, dropBytes_byteLength, hd, hd']
    rfl

lemma applyEditsFrom?_mergeSort {source : String} {edits : List Edit} (h : ∀ e ∈ edits, e.Fits source.toList) :
    applyEditsFrom? source.toList 0 (edits.mergeSort Edit.le) = some (applyEdits source edits).toList := by
  have hstart : IsBoundary source.toList 0 := ⟨[], _, rfl, rfl⟩
  have hzero : dropBytes 0 source.toList = source.toList := dropBytes_byteLength [] _
  rw [applyEditsFrom?_eq hstart fun e he => h e ((mergeSort_perm edits Edit.le).mem_iff.1 he), hzero, applyEdits,
    toList_ofList]

/-- **Edits keep exactly what they do not cover.** If the text can be cut where they start and stop, their result is made
of the characters outside all ranges, in their order, and of the text of every edit once, in the order of the ranges. If
they put nothing in, it does not matter in which order they are given. -/
theorem applyEdits_exact {source : String} {edits : List Edit} (h : ∀ e ∈ edits, e.Fits source.toList) :
    applyEditsFrom? source.toList 0 (edits.mergeSort Edit.le) = some (applyEdits source edits).toList ∧
    (∃ pieces, Interleaves edits 0 source.toList pieces ∧ (applyEdits source edits).toList = pieces.flatMap pieceChars) ∧
    ((∀ e ∈ edits, e.text = "") → ∀ edits' : List Edit, edits.Perm edits' →
      applyEdits source edits' = applyEdits source edits) := by
  refine ⟨applyEditsFrom?_mergeSort h, applyEdits_pieces h, fun htext edits' hperm => toList_inj.1 ?_⟩
  rw [applyEdits_removals htext h, uncovered_perm hperm]
  exact applyEdits_removals (fun e he => htext e (hperm.mem_iff.2 he)) fun e he => h e (hperm.mem_iff.2 he)

theorem applyEdits_exact_overlap : (∀ e ∈ [⟨3, 5, "X"⟩, (⟨1, 4, "Y"⟩ : Edit)], e.Fits "aébcd".toList) ∧
    applyEdits "aébcd" [⟨3, 5, "X"⟩, ⟨1, 4, "Y"⟩] = "aYXd" ∧ (∃ pieces, Interleaves [⟨3, 5, "X"⟩, ⟨1, 4, "Y"⟩] 0
      "aébcd".toList pieces ∧ "aYXd".toList = pieces.flatMap pieceChars) ∧
    applyEdits "aébcd" [⟨3, 5, ""⟩, ⟨1, 4, ""⟩] = applyEdits "aébcd" [⟨1, 4, ""⟩, ⟨3, 5, ""⟩] := by
  have hfits : ∀ x y : String, ∀ e ∈ [⟨3, 5, x⟩, (⟨1, 4, y⟩ : Edit)], e.Fits "aébcd".toList := by
    intro x y
    simp only [forall_mem_cons]
    exact ⟨⟨⟨['a', 'é'], _, rfl, rfl⟩, ['a', 'é', 'b', 'c'], _, rfl, rfl⟩, ⟨⟨['a'], _, rfl, rfl⟩, ['a', 'é', 'b'], _, rfl, rfl⟩,
      by simp⟩
  have hout : applyEdits "aébcd" [⟨3, 5, "X"⟩, ⟨1, 4, "Y"⟩] = "aYXd" := by cbv
  exact ⟨hfits _ _, hout, hout ▸ (applyEdits_exact (hfits _ _)).2.1,
    ((applyEdits_exact (hfits _ _)).2.2 (by simp) _ (.swap _ _ [])).symm⟩

namespace Stream

variable (s : Stream)

/-- The text of a script without the types in a frame, or nothing if the walk stops. The outer option tells whether a look
failed. -/
def eraseFrame? (erase? : String → Option (Option String)) (frame : Frame) (hi lo : Nat) : Option (Option String) := do
  match ← (s.view.scan? erase? frame {} hi lo).run with
  | .error _ => return none
  | .ok changes =>
    let edits := (changes.flatMap s.render).mergeSort Edit.le
    return some (String.ofList (← applyEditsFrom? s.source.toList 0 edits))

variable {s} {erase : String → Except Fault String} {erase? : String → Option (Option String)} {frame : Frame} {hi lo : Nat}

lemma Framed.eraseFrame? (hf : s.Framed lo hi)
    (hen : frame = .classBody ∨ frame = .specifiers → hi < s.size ∧ (s.tok hi).isCloser)
    (h : ∀ e : String, e.length + 3 ≤ s.source.length → erase? e = some (erase e).toOption) :
    s.eraseFrame? erase? frame hi lo = some (applyEdits s.source <$> s.scan erase frame {} hi lo).toOption := by
  have hs : s.Follows erase (s.Makes erase) (s.view.scan? erase? frame {} hi lo) _ := hf.scan h le_rfl hen (.start lo)
  rcases hs.exists_or with ⟨chs, es, hx, hy, hm⟩ | ⟨snag, -, hx, hy⟩
  · have he := applyEditsFrom?_mergeSort fun e he => (hm.called e he).fits hf.read
    rw [Stream.eraseFrame?, hx, hy, hm.render]
    change (do return some (String.ofList (← applyEditsFrom? _ _ _))) = _
    rw [← hm.render, he]
    change some (some (String.ofList (applyEdits s.source es).toList)) = _
    rw [ofList_toList]
    rfl
  · rw [Stream.eraseFrame?, hx, hy]
    rfl

end Stream

/-- The checked erasure of types from an expression. The expressions in it have to be shorter. -/
def eraseExpression? (expr : String) : Option (Option String) :=
  match Stream.read ("(" ++ expr ++ ")") with
  | .error _ => some none
  | .ok s => do
    let erase? (e : String) := if _ : e.length < expr.length then eraseExpression? e else none
    return (← s.eraseFrame? erase? .paren (s.size - 1) 1).map withoutParentheses
termination_by expr.length

lemma eraseExpression?_eq {expr : String} {d : Nat} (h : expr.length < d) :
    eraseExpression? expr = some (eraseExpression d expr).toOption := by
  induction hn : expr.length using Nat.strong_induction_on generalizing expr d with
  | _ n ih =>
    subst hn
    obtain ⟨d, rfl⟩ : ∃ n, d = n + 1 := ⟨d - 1, by omega⟩
    rw [eraseExpression?, eraseExpression]
    cases hs : Stream.read ("(" ++ expr ++ ")") with
    | error fault => rfl
    | ok s =>
      have hl := length_parenthesized expr
      obtain ⟨-, -, -, -, hso, -⟩ := Stream.exists_of_read hs
      have hf := Stream.framed_of_size_le hs (Nat.sub_le s.size 1) (by omega) 1
      have he : s.eraseFrame? (fun e => if _ : e.length < expr.length then eraseExpression? e else none) .paren _ _ =
          some (_ <$> s.scan (eraseExpression d) .paren {} _ _).toOption := hf.eraseFrame? (by simp) fun e he => by
        rw [hso] at he
        rw [dif_pos (by omega), ih e.length (by omega) (d := d) (by omega) rfl]
      change (s.eraseFrame? _ _ _ _ >>= _) = some (s.scan (eraseExpression d) .paren {} (s.size - 1) 1 >>= _).toOption
      rw [he]
      cases s.scan (eraseExpression d) .paren {} (s.size - 1) 1 <;> rfl

/-- The checked erasure of types from a script: a text, or nothing for a fault. -/
def eraseTypes? (source : String) : Option (Option String) :=
  match Stream.read source with
  | .error _ => some none
  | .ok s =>
    s.eraseFrame? (fun e => if e.length < source.length then eraseExpression? e else none) .block s.size 0

/-- **Erasure is safe.** The checked eraser looks up tokens only where there are some, cuts texts between characters only,
goes on to shorter expressions only, and ends as erasure does. -/
theorem eraseTypes_checked (source : String) : eraseTypes? source = some (eraseTypes source).toOption := by
  rw [eraseTypes?, eraseTypes, typeEdits]
  cases hread : Stream.read source with
  | error fault => rfl
  | ok s =>
    obtain ⟨-, -, -, -, hsource, -⟩ := Stream.exists_of_read hread
    have hframed := Stream.framed_of_size_le hread le_rfl (Nat.le_succ _) 0
    have herase : s.eraseFrame? (fun e => if e.length < source.length then eraseExpression? e else none) .block _ _ =
        some (_ <$> s.scan (eraseExpression source.length) .block {} _ _).toOption :=
      hframed.eraseFrame? (by simp) fun e he => by
        rw [hsource] at he
        rw [if_pos (by omega), eraseExpression?_eq (d := source.length) (by omega)]
    change s.eraseFrame? _ _ _ _ = some (s.scan (eraseExpression source.length) .block {} s.size 0 >>= _).toOption
    rw [herase, hsource]
    cases s.scan (eraseExpression source.length) .block {} s.size 0 <;> rfl

end CustomElement.Script
