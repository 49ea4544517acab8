import FinLang.Proofs.Tree.Recovery
import FinLang.Proofs.Tree.Spans

namespace FinLang

-- Places of a text: at least one byte of it, and the row and column at which the
-- first of them stands.
def Places.within (source : String) : Places where
  holds p s := s.Inside source.utf8ByteSize ∧ ∃ before after, source = before ++ after ∧
    before.utf8ByteSize = s.start ∧ p = .behind before
  single h := ⟨⟨Nat.lt_succ_self _, Nat.le_trans h.1.nonempty h.1.stop_le⟩, h.2⟩

theorem Piece.within {source text : String} {s : Span} {p : Position} (h : Piece source text s p) :
    (Places.within source).holds p s := by
  obtain ⟨before, after, hsource, hspan, hp⟩ := h.cut
  exact ⟨h.inside, before, text ++ after, by rw [hsource, String.append_assoc], by rw [hspan], hp⟩

namespace Scanner

variable {s next : Scanner} {t : Token} {w : Option Diagnostic}

-- What is wrong with a token is wrong at its place,
theorem readToken_warning (h : s.readToken = .token t next w) :
    ∀ d ∈ w, d.position = t.position ∧ d.span = t.span := by
  unfold readToken at h
  split at h
  · cases h
  · split at h
    · cases h
      simp
    · cases h
    · split at h
      · cases h
        intro d hd
        split at hd
        · cases hd
        · cases hd
          exact ⟨rfl, rfl⟩
      · cases h

-- and so through a whole scan.
theorem scan_warnings (s : Scanner) : ∀ d ∈ s.scan.warnings,
    ∃ t ∈ s.scan.tokens.map Prod.fst, d.position = t.position ∧ d.span = t.span := by
  fun_induction Scanner.scan s with
  | case1 | case2 => simp
  | case3 s t next w htoken hshorter ih =>
    intro d hd
    rcases List.mem_append.mp hd with hd | hd
    · exact ⟨t, .head _, readToken_warning htoken d (Option.mem_toList.mp hd)⟩
    · obtain ⟨u, hu, hplace⟩ := ih d hd
      exact ⟨u, .tail _ hu, hplace⟩

end Scanner

variable {L : Places} {b : Builder} {ns : List Node} {errors extra : List Diagnostic}

namespace Builder

-- What is left on the stack is complained about unless it is a statement.
theorem leftoverErrors_in (unclosed : Bool) (herrors : ∀ d ∈ errors, d.In L)
    (hns : ∀ n ∈ ns, n.Made L ∨ n.openBracket? = none ∧ n.isStatement = true) :
    ∀ d ∈ leftoverErrors unclosed errors ns, d.In L := by
  unfold leftoverErrors
  induction ns generalizing errors with
  | nil => exact herrors
  | cons n ns ih =>
    rw [List.forall_mem_cons] at hns
    refine ih ?_ hns.2
    rcases hns.1 with hn | ⟨hbracket, hstatement⟩
    · have hin : ∀ c, ∀ d ∈ nodeError n c :: errors, d.In L := fun c =>
        List.forall_mem_cons.mpr ⟨nodeError_in hn c, herrors⟩
      simp only
      split
      · exact hin _
      · split
        · exact herrors
        · exact hin _
    · simpa [hbracket, hstatement] using herrors

theorem Made.finish_errors (h : b.Made L) (source : String) (hextra : ∀ d ∈ extra, d.In L) :
    ∀ d ∈ (b.finish source extra).errors, d.In L := by
  have hclosed : (∀ d ∈ (b.closeLast source.utf8ByteSize).errors, d.In L) ∧
      ∀ n ∈ (b.closeLast source.utf8ByteSize).stack.reverse,
        n.Made L ∨ n.openBracket? = none ∧ n.isStatement = true := by
    simp only [List.mem_reverse]
    rcases h.closeLast_cases source.utf8ByteSize with hmade | ⟨t, e, below, errors, -, -, hbelow, -, heq⟩
    · exact ⟨hmade.errors, fun n hn => .inl (hmade.stack n hn)⟩
    · rw [heq]
      exact ⟨hbelow.errors, List.forall_mem_cons.mpr ⟨.inr ⟨rfl, rfl⟩, fun n hn => .inl (hbelow.stack n hn)⟩⟩
  intro d hd
  rcases List.mem_append.mp (List.mem_mergeSort.mp hd) with hd | hd
  · exact leftoverErrors_in _ hclosed.1 hclosed.2 d (List.mem_reverse.mp hd)
  · exact hextra d hd

end Builder

namespace Position

theorem le_trans {p q r : Position} (h : p.le q = true) (h' : q.le r = true) : p.le r = true := by
  simp only [le, Bool.or_eq_true, Bool.and_eq_true, decide_eq_true_eq, beq_iff_eq] at *
  omega

theorem le_total (p q : Position) : (p.le q || q.le p) = true := by
  simp only [le, Bool.or_eq_true, Bool.and_eq_true, decide_eq_true_eq, beq_iff_eq]
  omega

end Position

theorem Diagnostic.sort_ordered (ds : List Diagnostic) :
    (Diagnostic.sort ds).Pairwise fun d e => d.position.le e.position = true := by
  have htrans : ∀ d e f : Diagnostic, d.position.le e.position = true →
      e.position.le f.position = true → d.position.le f.position = true :=
    fun _ _ _ => Position.le_trans
  have htotal : ∀ d e : Diagnostic,
      (d.position.le e.position || e.position.le d.position) = true :=
    fun _ _ => Position.le_total _ _
  exact List.pairwise_mergeSort htrans htotal ds

-- Every complaint about a text is about a place in it, and they come in the order
-- of these places.
theorem Tree.parse_points (source : String) :
    (∀ d ∈ (Tree.parse source).errors, d.In (.within source)) ∧
      (Tree.parse source).errors.Pairwise fun d e => d.position.le e.position = true := by
  obtain ⟨-, hpieces, -, hfatal, -⟩ := Scan.ofSource_tiles source
  refine ⟨?_, Diagnostic.sort_ordered _⟩
  have htokens : ∀ t ∈ (Scan.ofSource source).tokens.map Prod.fst, t.In (.within source) :=
    fun t ht => (hpieces t ht).within
  have hwarnings : ∀ d ∈ (Scan.ofSource source).warnings, d.In (.within source) := fun d hd => by
    obtain ⟨t, ht, hp, hs⟩ := Scanner.scan_warnings _ d hd
    have := htokens t ht
    rwa [Token.In, ← hp, ← hs] at this
  have hbuilt : (Builder.empty.pushTokens ((Scan.ofSource source).tokens.map Prod.fst)).Made
      (.within source) := .pushTokens .empty htokens
  refine Builder.Made.finish_errors ?_ source hwarnings
  cases hstop : (Scan.ofSource source).fatal with
  | none => exact hbuilt
  | some d =>
    obtain ⟨⟨text, hpiece⟩, -⟩ := hfatal d hstop
    exact hbuilt.record hpiece.within

end FinLang
