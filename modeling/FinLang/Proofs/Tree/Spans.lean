import FinLang.Proofs.Token.Tiling
import FinLang.Proofs.Tree.Alike

namespace FinLang

-- A place that lies within the first bytes of a text and takes at least one.
structure Span.Inside (size : Nat) (s : Span) : Prop where
  nonempty : s.start < s.stop
  stop_le : s.stop ≤ size

-- A token is like itself if it lies inside.
def Likeness.inside (size : Nat) : Likeness where
  rel t u := t = u ∧ t.span.Inside size
  kind h := congrArg Token.kind h.1
  text h := congrArg Token.text h.1
  retag k h := ⟨by rw [h.1], h.2⟩
  slot h := ⟨by rw [h.1], Nat.lt_succ_self _, Nat.le_trans h.2.nonempty h.2.stop_le⟩
  semicolon h := ⟨by rw [h.1], Nat.lt_succ_self _, Nat.le_trans h.2.nonempty h.2.stop_le⟩

-- All of a tree lies inside.
abbrev Node.Inside (size : Nat) (n : Node) : Prop :=
  n.Alike (.inside size) n

variable {size : Nat} {n : Node} {t : Token} {b : Builder}

namespace Node.Inside

theorem span (h : n.Inside size) (ht : n.token = some t) : t.span.Inside size := by
  have := h.token
  rw [ht] at this
  cases this with
  | some h => exact h.2

theorem child (h : n.Inside size) {c : Node} (hc : c ∈ n.children) : c.Inside size := by
  have := h.children
  rw [List.forall₂_same] at this
  exact this c hc

end Node.Inside

theorem Piece.inside {source text : String} {s : Span} {p : Position} (h : Piece source text s p) :
    s.Inside source.utf8ByteSize := by
  obtain ⟨before, after, rfl, rfl, -⟩ := h.cut
  have hpos : 0 < text.utf8ByteSize := Nat.pos_of_ne_zero fun hz =>
    h.nonempty (String.utf8ByteSize_eq_zero_iff.mp hz)
  constructor <;> simp only [String.utf8ByteSize_append] <;> omega

namespace Builder

-- A statement that the end of the source has ended, or one that lies inside.
def Closed (size : Nat) (n : Node) : Prop :=
  n.Inside size ∨ ∃ t e, n = ⟨.statement, some t, [e]⟩ ∧ t.operator? = some .semicolon ∧ e.Inside size

theorem inside_of_alike (h : b.Alike (.inside size) b) : ∀ n ∈ b.stack, n.Inside size := by
  have := h.stack
  rwa [List.forall₂_same] at this

theorem finishStatement_closed (h : b.Alike (.inside size) b) (ht : t.operator? = some .semicolon) :
    ∀ n ∈ (b.finishStatement t).stack, Closed size n := by
  have hinside := inside_of_alike h
  obtain ⟨stack, errors⟩ := b
  obtain ⟨hs, he⟩ := h
  unfold finishStatement
  cases hs with
  | nil => exact nofun
  | @cons top _ below _ htop hbelow =>
    have hended : ∀ {ns : List Node}, (∀ n ∈ ns, n.Inside size) →
        ∀ n ∈ (⟨.statement, some t, [top]⟩ : Node) :: ns, Closed size n := fun hns n hn => by
      rcases List.mem_cons.mp hn with rfl | hn
      · exact .inr ⟨t, top, rfl, ht, htop⟩
      · exact .inl (hns n hn)
    have hword : ∀ {t' : Token} {word : Keyword} {o : Option Node} {rest : List Node},
        (Likeness.inside size).rel t' t' → Option.Rel (Node.Alike (.inside size)) o o →
        List.Forall₂ (Node.Alike (.inside size)) rest rest →
        ∀ n ∈ (pushKeywordStatement ⟨rest, errors⟩ t' word o).stack, Closed size n :=
      fun ht' ho hrest n hn => .inl (inside_of_alike
        (Builder.Alike.pushKeywordStatement (b := ⟨_, errors⟩) ⟨hrest, rfl⟩ ht' ho) n hn)
    simp only
    split
    · cases hbelow with
      | nil => exact hended (by simp)
      | @cons under _ rest _ hunder hrest =>
        rcases Builder.Alike.headToken? hunder with ⟨h₁, -⟩ | ⟨t', u', word, h₁, h₂, ht'⟩
        · simp only [h₁]
          exact hended fun n hn => hinside n (.tail _ hn)
        · cases h₁.symm.trans h₂
          simp only [h₁]
          exact hword ht' (.some htop) hrest
    · rcases Builder.Alike.headToken? htop with ⟨h₁, -⟩ | ⟨t', u', word, h₁, h₂, ht'⟩
      · simp only [h₁]
        exact fun n hn => .inl (hinside n hn)
      · cases h₁.symm.trans h₂
        simp only [h₁]
        exact hword ht' .none hbelow

theorem closeLast_closed (h : b.Alike (.inside size) b) :
    ∀ n ∈ (b.closeLast size).stack, Closed size n := by
  unfold closeLast
  split
  · exact finishStatement_closed h.completeExpression rfl
  · exact fun n hn => .inl (inside_of_alike h n hn)

end Builder

-- The statements of a program, which lie inside its source but for a semicolon
-- behind its end.
theorem Tree.parse_closed (source : String) :
    ∀ n ∈ (Tree.parse source).root.children, Builder.Closed source.utf8ByteSize n := by
  have htokens : List.Forall₂ (Likeness.inside source.utf8ByteSize).rel
      ((Scan.ofSource source).tokens.map Prod.fst) ((Scan.ofSource source).tokens.map Prod.fst) :=
    List.forall₂_same.mpr fun t ht => ⟨rfl, ((Scan.ofSource_tiles source).pieces t ht).inside⟩
  have hbuilt := Builder.Alike.pushTokens (R := .inside source.utf8ByteSize) .empty htokens
  -- The complaint that ends a scan does not touch the stack.
  have hfatal : ∀ o : Option Diagnostic, ∀ b : Builder, b.Alike (.inside source.utf8ByteSize) b →
      (o.elim b b.record).Alike (.inside source.utf8ByteSize) (o.elim b b.record) := by
    rintro (_ | d) b hb
    · exact hb
    · exact hb.record rfl
  intro n hn
  exact Builder.closeLast_closed (hfatal _ _ hbuilt) n
    (List.mem_reverse.mp (List.mem_of_mem_filter hn))

end FinLang
