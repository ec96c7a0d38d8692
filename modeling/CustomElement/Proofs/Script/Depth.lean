import CustomElement.Proofs.Script.Decisions

/-!
# How deep expressions are followed

The walk asks for the types to be erased from expressions that are shorter than the script, and from no others
(`Framed.scan_congr`). So the depth up to which expressions are followed makes no difference once it passes the length of the
text (`eraseExpression_stable`).
-/

namespace CustomElement.Script

open Text

namespace Stream

variable {s : Stream} {erase erase' : String → Except Fault String} {frame : Frame} {hi j lo : Nat}

lemma Framed.scan_congr (hf : s.Framed lo hi) (hl : lo ≤ j)
    (hen : frame = .classBody ∨ frame = .specifiers → hi < s.size ∧ (s.tok hi).isCloser)
    (h : ∀ e : String, e.length + 3 ≤ s.source.length → erase e = erase' e) :
    s.scan erase frame {} hi j = s.scan erase' frame {} hi j := by
  have hs : s.Follows erase (s.Makes erase) (s.view.scan? (fun e => some (erase e).toOption) frame {} hi j) _ :=
    hf.scan (fun _ _ => rfl) hl hen (.start j)
  have hs' : s.Follows erase' (s.Makes erase') (s.view.scan? (fun e => some (erase e).toOption) frame {} hi j) _ :=
    hf.scan (fun e he => by rw [h e he]) hl hen (.start j)
  generalize s.view.scan? _ _ _ _ _ = outcome at hs hs'
  rcases hs.exists_or with ⟨changes, edits, rfl, hed, hm⟩ | ⟨snag, hfi, rfl, hfa⟩
  · obtain ⟨edits', hed', hm'⟩ := hs'.eq_of_pure
    rw [hed, hed', hm.render, hm'.render]
  · rw [hfa, hs'.eq_of_throw]
    cases snag with
    | erasing expr => simp only [report, h expr hfi]
    | _ => rfl

end Stream

lemma length_parenthesized (expr : String) : ("(" ++ expr ++ ")").length = expr.length + 2 := by
  simp only [String.length_append]
  change 1 + expr.length + 1 = _
  omega

lemma eraseExpression_stable {expr : String} {d d' : Nat} (h : expr.length < d) (h' : expr.length < d') :
    eraseExpression d expr = eraseExpression d' expr := by
  induction d generalizing expr d' with
  | zero => omega
  | succ d ih =>
    obtain ⟨d', rfl⟩ : ∃ n, d' = n + 1 := ⟨d' - 1, by omega⟩
    unfold eraseExpression
    cases hs : Stream.read ("(" ++ expr ++ ")") with
    | error fault => rfl
    | ok s =>
      have hl := length_parenthesized expr
      have hso : s.source = "(" ++ expr ++ ")" := by
        obtain ⟨-, -, -, -, hso, -⟩ := Stream.exists_of_read hs
        exact hso
      have hw := (Stream.framed_of_size_le hs (Nat.sub_le s.size 1) (by omega) 1).scan_congr le_rfl
        (fun hf : Frame.paren = _ ∨ Frame.paren = _ => by simp at hf) fun e he =>
          @ih e d' (by rw [hso] at he; omega) (by rw [hso] at he; omega)
      change (s.scan _ _ _ _ _ >>= _) = (s.scan _ _ _ _ _ >>= _)
      rw [hw]

end CustomElement.Script
