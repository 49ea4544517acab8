import FinLang.Token.Scanner

namespace FinLang

section Bytes

variable {cs ds : List Char} {c : Char}

theorem foldl_utf8Size (n : Nat) (cs : List Char) :
    cs.foldl (fun n c => n + c.utf8Size) n = n + byteLength cs := by
  unfold byteLength
  induction cs generalizing n with
  | nil => rfl
  | cons c cs ih => rw [List.foldl_cons, List.foldl_cons, ih, ih (0 + c.utf8Size)]; omega

theorem byteLength_nil : byteLength [] = 0 :=
  rfl

theorem byteLength_cons : byteLength (c :: cs) = c.utf8Size + byteLength cs := by
  rw [byteLength, List.foldl_cons, foldl_utf8Size, Nat.zero_add]

theorem byteLength_append : byteLength (cs ++ ds) = byteLength cs + byteLength ds := by
  rw [byteLength, List.foldl_append, foldl_utf8Size]
  rfl

theorem length_le_byteLength (cs : List Char) : cs.length ≤ byteLength cs := by
  induction cs with
  | nil => exact Nat.le_refl _
  | cons c cs ih =>
    have := c.utf8Size_pos
    rw [List.length_cons, byteLength_cons]
    omega

theorem byteLength_ofList (cs : List Char) : (String.ofList cs).utf8ByteSize = byteLength cs := by
  induction cs with
  | nil => rfl
  | cons c cs ih =>
    rw [String.ofList_cons, String.utf8ByteSize_append, String.utf8ByteSize_singleton, ih,
      byteLength_cons]

theorem byteLength_toList (s : String) : byteLength s.toList = s.utf8ByteSize := by
  rw [← byteLength_ofList, String.ofList_toList]

end Bytes

-- The place right behind a text: a row for each newline in it, and a column for
-- each byte since the last of them.
def Position.behind (text : String) : Position :=
  ⟨1 + text.toList.count '\n', 1 + byteLength (text.toList.reverse.takeWhile (· != '\n'))⟩

theorem Position.advance_start (cs : List Char) :
    Position.start.advance cs = .behind (String.ofList cs) := by
  obtain ⟨ds, rfl⟩ : ∃ ds : List Char, ds.reverse = cs := ⟨cs.reverse, List.reverse_reverse cs⟩
  simp only [Position.behind, String.toList_ofList, List.reverse_reverse, List.count_reverse]
  unfold Position.advance
  induction ds with
  | nil => rfl
  | cons d ds ih =>
    rw [List.reverse_cons, List.foldl_append, ih, List.foldl_cons, List.foldl_nil, Position.step,
      List.takeWhile_cons, List.count_cons]
    by_cases h : d = '\n'
    · simp [h, byteLength_nil, Nat.add_assoc]
    · simp [h, byteLength_cons, Nat.add_left_comm, Nat.add_comm]

-- A part of a source text: the span holds its bytes, and it begins at the
-- position.
structure Piece (source text : String) (span : Span) (p : Position) : Prop where
  nonempty : text ≠ ""
  cut : ∃ before after, source = before ++ text ++ after ∧
    span = ⟨before.utf8ByteSize, (before ++ text).utf8ByteSize⟩ ∧ p = .behind before

-- The tokens of a scan cover its source, blanks excepted, up to the end or to
-- what stopped it.
structure Scan.Tiles (source : String) (s : Scan) : Prop where
  few : s.tokens.length ≤ source.utf8ByteSize
  pieces : ∀ t ∈ s.tokens.map Prod.fst, Piece source t.text t.span t.position
  ordered : (s.tokens.map Prod.fst).Pairwise fun t u => t.span.stop ≤ u.span.start
  fatal : ∀ d ∈ s.fatal, (∃ text, Piece source text d.span d.position) ∧
    ∀ t ∈ s.tokens.map Prod.fst, t.span.stop ≤ d.span.start
  gaps : ∀ before c after, source = before ++ String.singleton c ++ after →
    (∀ d ∈ s.fatal, before.utf8ByteSize < d.span.start) → Lexeme.isBlank c = true ∨
      ∃ t ∈ s.tokens.map Prod.fst, t.span.start ≤ before.utf8ByteSize ∧
        before.utf8ByteSize < t.span.stop

namespace Scanner

variable {cs before : List Char} {s : Scanner}

-- A scanner that has read the first characters of a text.
structure At (cs before : List Char) (s : Scanner) : Prop where
  text : cs = before ++ s.rest
  offset : s.offset = byteLength before
  position : s.position = .behind (String.ofList before)

theorem At.start (cs : List Char) : At cs [] (.start cs) :=
  ⟨rfl, rfl, rfl⟩

theorem At.advance (h : At cs before s) (n : Nat) :
    At cs (before ++ s.rest.take n) (s.advance n) where
  text := by
    rw [Scanner.advance, List.append_assoc, List.take_append_drop]
    exact h.text
  offset := by
    rw [byteLength_append, ← h.offset]
    rfl
  position := by
    rw [← Position.advance_start, Position.advance, List.foldl_append]
    show s.position.advance _ = _
    rw [h.position, ← Position.advance_start]
    rfl

theorem At.skipBlanks (h : At cs before s) :
    At cs (before ++ s.rest.takeWhile Lexeme.isBlank) s.skipBlanks := by
  have htake := List.prefix_iff_eq_take.mp (List.takeWhile_prefix (l := s.rest) Lexeme.isBlank)
  rw [htake]
  exact h.advance _

-- A piece that begins where the scanner is.
theorem At.piece (h : At cs before s) {n : Nat} (hn : 0 < n) (hrest : s.rest ≠ []) :
    Piece (String.ofList cs) (String.ofList (s.rest.take n)) (s.spanTo (s.advance n)) s.position where
  nonempty hempty := by
    have hlen := congrArg String.toList hempty
    rw [String.toList_ofList, String.toList_empty, List.take_eq_nil_iff] at hlen
    exact hlen.elim (by omega) hrest
  cut := by
    refine ⟨String.ofList before, String.ofList (s.rest.drop n), ?_, ?_, h.position⟩
    · rw [← String.ofList_append, ← String.ofList_append, List.append_assoc, List.take_append_drop,
        ← h.text]
    · rw [spanTo, (h.advance n).offset, h.offset, ← String.ofList_append, byteLength_ofList,
        byteLength_ofList]

-- What one token takes.
structure Takes (s : Scanner) (n : Nat) (span : Span) (p : Position) : Prop where
  some : 0 < n
  rest : s.rest ≠ []
  span : span = s.spanTo (s.advance n)
  position : p = s.position

theorem readToken_done (h : s.readToken = .done) : s.rest = [] := by
  unfold readToken at h
  split at h
  · assumption
  · split at h
    · cases h
    · cases h
    · split at h <;> cases h

theorem readToken_token {t : Token} {next : Scanner} {w : Option Diagnostic}
    (h : s.readToken = .token t next w) :
    ∃ n, s.Takes n t.span t.position ∧ t.text = String.ofList (s.rest.take n) ∧
      ∃ order, next = { s.advance n with order := order } := by
  unfold readToken at h
  split at h
  · cases h
  · rename_i c cs hrest
    have hne : s.rest ≠ [] := by simp [hrest]
    split at h
    · rename_i l _
      cases h
      exact ⟨l.length, ⟨l.length_pos, hne, rfl, rfl⟩, rfl, _, rfl⟩
    · cases h
    · split at h
      · rename_i l _ _
        cases h
        exact ⟨l.length, ⟨l.length_pos, hne, rfl, rfl⟩, rfl, _, rfl⟩
      · cases h

theorem readToken_fatal {d : Diagnostic} (h : s.readToken = .fatal d) :
    ∃ n, s.Takes n d.span d.position := by
  unfold readToken at h
  split at h
  · cases h
  · rename_i c cs hrest
    have hne : s.rest ≠ [] := by simp [hrest]
    split at h
    · cases h
    · cases h
      exact ⟨s.rest.length, ⟨List.length_pos_iff.mpr hne, hne, rfl, rfl⟩⟩
    · split at h
      · cases h
      · cases h
        exact ⟨1, ⟨Nat.one_pos, hne, rfl, rfl⟩⟩

theorem Takes.piece {n : Nat} {span : Span} {p : Position} (h : s.Takes n span p)
    (hat : At cs before s) :
    Piece (String.ofList cs) (String.ofList (s.rest.take n)) span p := by
  rw [h.span, h.position]
  exact hat.piece h.some h.rest

theorem Takes.start {n : Nat} {span : Span} {p : Position} (h : s.Takes n span p)
    (hat : At cs before s) : span.start = byteLength before := by
  rw [h.span]
  exact hat.offset

theorem Takes.stop {n : Nat} {span : Span} {p : Position} (h : s.Takes n span p)
    (hat : At cs before s) : span.stop = byteLength (before ++ s.rest.take n) := by
  rw [h.span]
  exact (hat.advance n).offset

-- What a scan from behind the first characters of a text comes to.
structure Covers (source before : List Char) (ts : List Token) (fatal : Option Diagnostic) :
    Prop where
  few : before.length + ts.length ≤ source.length
  pieces : ∀ t ∈ ts, Piece (String.ofList source) t.text t.span t.position
  later : ∀ t ∈ ts, byteLength before ≤ t.span.start
  ordered : ts.Pairwise fun t u => t.span.stop ≤ u.span.start
  stopped : ∀ d ∈ fatal, (∃ text, Piece (String.ofList source) text d.span d.position) ∧
    byteLength before ≤ d.span.start ∧ ∀ t ∈ ts, t.span.stop ≤ d.span.start
  gaps : ∀ mid c after, source = before ++ (mid ++ c :: after) →
    (∀ d ∈ fatal, byteLength (before ++ mid) < d.span.start) → Lexeme.isBlank c = true ∨
      ∃ t ∈ ts, t.span.start ≤ byteLength (before ++ mid) ∧ byteLength (before ++ mid) < t.span.stop

variable {ts : List Token} {fatal : Option Diagnostic} {ws xs : List Char}

-- A place in a text behind the characters that come first is in the next ones or
-- behind them.
theorem split_behind {mid after : List Char} {c : Char} {rest : List Char}
    (h : ws ++ rest = mid ++ c :: after) :
    (∃ m, ws = mid ++ c :: m) ∨ ∃ m, mid = ws ++ m ∧ rest = m ++ c :: after := by
  rcases List.append_eq_append_iff.mp h with ⟨m, hmid, hrest⟩ | ⟨m, hws, hrest⟩
  · exact .inr ⟨m, hmid, hrest⟩
  · cases m with
    | nil => exact .inr ⟨[], by simpa using hws.symm, by simpa using hrest.symm⟩
    | cons d m =>
      rw [List.cons_append] at hrest
      cases hrest
      exact .inl ⟨m, hws⟩

-- Blanks in front of what is read,
theorem Covers.blanks (h : Covers cs (before ++ ws) ts fatal) (hstem : ∃ rest, cs = before ++ (ws ++ rest))
    (hws : ∀ c ∈ ws, Lexeme.isBlank c = true) : Covers cs before ts fatal := by
  have hle : byteLength before ≤ byteLength (before ++ ws) := by
    rw [byteLength_append]
    exact Nat.le_add_right ..
  obtain ⟨rest, hrest⟩ := hstem
  refine ⟨?_, h.pieces, fun t ht => Nat.le_trans hle (h.later t ht), h.ordered, fun d hd => ?_,
    fun mid c after heq hfatal => ?_⟩
  · have := h.few
    rw [List.length_append] at this
    omega
  · obtain ⟨hpiece, hlater, hts⟩ := h.stopped d hd
    exact ⟨hpiece, Nat.le_trans hle hlater, hts⟩
  · rw [hrest] at heq
    rcases split_behind (List.append_cancel_left heq) with ⟨m, rfl⟩ | ⟨m, rfl, hm⟩
    · exact .inl (hws c (by simp))
    · rw [← List.append_assoc] at hfatal ⊢
      exact h.gaps m c after (by rw [hrest, hm, List.append_assoc]) hfatal

-- and a token.
theorem Covers.token {t : Token} (h : Covers cs (before ++ xs) ts fatal)
    (hstem : ∃ rest, cs = before ++ (xs ++ rest)) (hxs : xs ≠ [])
    (hpiece : Piece (String.ofList cs) t.text t.span t.position)
    (hstart : t.span.start = byteLength before) (hstop : t.span.stop = byteLength (before ++ xs)) :
    Covers cs before (t :: ts) fatal := by
  have hle : byteLength before ≤ byteLength (before ++ xs) := by
    rw [byteLength_append]
    exact Nat.le_add_right ..
  obtain ⟨rest, hrest⟩ := hstem
  refine ⟨?_, fun u hu => ?_, fun u hu => ?_, ?_, fun d hd => ?_, fun mid c after heq hfatal => ?_⟩
  · have := h.few
    have := List.length_pos_iff.mpr hxs
    rw [List.length_append] at *
    rw [List.length_cons]
    omega
  · rcases List.mem_cons.mp hu with rfl | hu
    · exact hpiece
    · exact h.pieces u hu
  · rcases List.mem_cons.mp hu with rfl | hu
    · exact Nat.le_of_eq hstart.symm
    · exact Nat.le_trans hle (h.later u hu)
  · exact List.pairwise_cons.mpr ⟨fun u hu => hstop ▸ h.later u hu, h.ordered⟩
  · obtain ⟨hplace, hlater, hts⟩ := h.stopped d hd
    refine ⟨hplace, Nat.le_trans hle hlater, fun u hu => ?_⟩
    rcases List.mem_cons.mp hu with rfl | hu
    · exact hstop ▸ hlater
    · exact hts u hu
  · rw [hrest] at heq
    rcases split_behind (List.append_cancel_left heq) with ⟨m, rfl⟩ | ⟨m, rfl, hm⟩
    · refine .inr ⟨t, List.mem_cons_self .., ?_, ?_⟩
      · rw [hstart, byteLength_append]
        omega
      · have := c.utf8Size_pos
        rw [hstop]
        simp only [byteLength_append, byteLength_cons]
        omega
    · rw [← List.append_assoc] at hfatal ⊢
      rcases h.gaps m c after (by rw [hrest, hm, List.append_assoc]) hfatal with hc | ⟨u, hu, hin⟩
      · exact .inl hc
      · exact .inr ⟨u, List.mem_cons_of_mem _ hu, hin⟩

theorem Covers.skip (h : At cs before s)
    (hc : Covers cs (before ++ s.rest.takeWhile Lexeme.isBlank) ts fatal) : Covers cs before ts fatal := by
  refine hc.blanks ⟨s.rest.dropWhile Lexeme.isBlank, ?_⟩ fun c hc => ?_
  · rw [List.takeWhile_append_dropWhile, h.text]
  · exact List.all_eq_true.mp List.all_takeWhile c hc

theorem scan_covers (h : At cs before s) :
    Covers cs before (s.scan.tokens.map Prod.fst) s.scan.fatal := by
  have hat := h.skipBlanks
  fun_induction Scanner.scan s generalizing before with
  | case1 s hdone =>
    have hrest := readToken_done hdone
    have htext := hat.text
    rw [hrest, List.append_nil] at htext
    refine .skip h ⟨?_, nofun, nofun, .nil, nofun, fun mid c after heq _ => ?_⟩
    · rw [← htext]
      exact Nat.le_refl _
    · have hnil : [] = mid ++ c :: after :=
        List.append_cancel_left ((List.append_nil _).trans (htext.symm.trans heq))
      simp at hnil
  | case2 s d hfatal =>
    obtain ⟨n, htakes⟩ := readToken_fatal hfatal
    refine .skip h ⟨?_, nofun, nofun, .nil, fun e he => ?_, fun mid c after heq hlt => ?_⟩
    · have := congrArg List.length hat.text
      rw [List.length_append] at this
      exact this ▸ Nat.le_add_right ..
    · cases he
      exact ⟨⟨_, htakes.piece hat⟩, Nat.le_of_eq (htakes.start hat).symm, nofun⟩
    · have hlt := hlt d rfl
      rw [htakes.start hat, byteLength_append] at hlt
      omega
  | case3 s t next w htoken hshorter ih =>
    obtain ⟨n, htakes, htext, order, rfl⟩ := readToken_token htoken
    have hnext : At cs (before ++ s.rest.takeWhile Lexeme.isBlank ++ s.skipBlanks.rest.take n)
        { s.skipBlanks.advance n with order := order } :=
      ⟨(hat.advance n).text, (hat.advance n).offset, (hat.advance n).position⟩
    refine .skip h (.token (ih hnext hnext.skipBlanks) ⟨s.skipBlanks.rest.drop n, ?_⟩ ?_ ?_
      (htakes.start hat) (htakes.stop hat))
    · rw [List.take_append_drop, hat.text]
    · have := htakes.some
      rw [ne_eq, List.take_eq_nil_iff]
      exact fun h => h.elim (by omega) htakes.rest
    · rw [htext]
      exact htakes.piece hat

end Scanner

-- The tokens of a text and the blanks between them are all there is.
theorem Scan.ofSource_tiles (source : String) : (Scan.ofSource source).Tiles source := by
  obtain ⟨hfew, hpieces, -, hordered, hfatal, hgaps⟩ := Scanner.scan_covers (.start source.toList)
  rw [String.ofList_toList] at hpieces hfatal
  refine ⟨?_, hpieces, hordered, fun d hd => ?_, fun before c after heq hlt => ?_⟩
  · rw [← byteLength_toList]
    rw [List.length_map] at hfew
    simp only [List.length_nil, Nat.zero_add] at hfew
    exact Nat.le_trans hfew (length_le_byteLength _)
  · obtain ⟨hpiece, -, hts⟩ := hfatal d hd
    exact ⟨hpiece, hts⟩
  · have hsplit : source.toList = [] ++ (before.toList ++ c :: after.toList) := by
      simp [heq]
    have hgap := hgaps before.toList c after.toList hsplit
    rw [List.nil_append, byteLength_toList] at hgap
    exact hgap hlt

end FinLang
