import FinLang.Proofs.Tree.Statements

namespace FinLang

namespace Node

variable {n m : Node} {cs : List Node} {t : Token} {row : Binding} {op : Operator}

theorem mem_subnodesOf : m ∈ subnodesOf cs ↔ ∃ c ∈ cs, m ∈ c.subnodes := by
  induction cs with
  | nil => simp [subnodesOf]
  | cons n rest ih => simp [subnodesOf, ih]

theorem mem_subnodes : m ∈ n.subnodes ↔ m = n ∨ ∃ c ∈ n.children, m ∈ c.subnodes := by
  obtain ⟨kind, token, children⟩ := n
  simp [subnodes, mem_subnodesOf]

theorem Sound.of_parts (hn : n.Sane) (hcs : ∀ c ∈ n.children, c.Sound) : n.Sound := by
  intro m hm
  rcases mem_subnodes.1 hm with rfl | ⟨c, hc, hm⟩
  · exact hn
  · exact hcs c hc m hm

theorem Sane.of_kind (h : n.kind ≠ .expression) : n.Sane := by
  obtain ⟨kind, token, children⟩ := n
  refine ⟨?_, fun hkind => absurd hkind h⟩
  cases kind <;> trivial

theorem Sane.of_operator (ht : t.binding? = some row) (hfits : (expression t cs).Fits)
    (hlen : cs.length = row.needsLeft.toNat + row.needsRight.toNat) : (expression t cs).Sane := by
  refine ⟨hfits, fun _ row' hrow => ?_⟩
  cases ht.symm.trans (Option.mem_def.mp hrow)
  exact hlen

theorem Sane.of_application (ht : t.binding? = none) (hfits : (expression t cs).Fits) :
    (expression t cs).Sane := by
  refine ⟨hfits, fun _ row hrow => ?_⟩
  cases ht.symm.trans (Option.mem_def.mp hrow)

theorem Sane.of_bracket (ht : t.operator? = some op) (hop : op.opensBracket = true) :
    (expression t cs).Sane := by
  have hbind : t.binding? = none :=
    Builder.binding?_of_bracket ht (by cases op <;> first | rfl | cases hop)
  have happ : isApplication t = false := by
    cases op <;> cases hop <;> simp [isApplication, ht]
  refine .of_application hbind ?_
  unfold Fits expression
  split <;> simp_all

theorem Sound.of_other (h : (n.kind == .expression) = false) (hcs : ∀ c ∈ n.children, c.Sound) :
    n.Sound :=
  .of_parts (.of_kind (by simpa using h)) hcs

theorem Sound.leaf (h : (n.kind == .expression) = false) (hcs : n.children = []) : n.Sound :=
  .of_other h (by simp [hcs])

theorem always_sound : always.Sound :=
  .of_parts ⟨trivial, by simp [Saturated, always]⟩ (by simp [always])

end Node

theorem Parsed.sound {S : Token → Prop} {role : Role} {n : Node} (h : Parsed S role n) :
    n.Sound := by
  induction h with
  | token => exact .leaf rfl rfl
  | leading ht hleft _ hfits ih =>
    obtain ⟨op, -, hrow⟩ := Token.operator?_of_binding ht
    refine .of_parts (.of_operator ht hfits ?_) (by simpa [Node.expression] using ih)
    simp [hleft, Builder.needsRight_of_needsLeft hrow hleft]
  | trailing ht hleft hright _ hfits ih =>
    refine .of_parts (.of_operator ht hfits ?_) (by simpa [Node.expression] using ih)
    simp [hleft, hright]
  | infixed ht hleft hright _ _ hfits ihl ihr =>
    refine .of_parts (.of_operator ht hfits ?_) (by simpa [Node.expression] using ⟨ihl, ihr⟩)
    simp [hleft, hright]
  | group ht _ ih => exact .of_parts (.of_bracket ht rfl) ih
  | list ht _ ih => exact .of_parts (.of_bracket ht rfl) ih
  | call ht _ _ _ hfits ihcallee ihargs =>
    refine .of_parts (.of_application (Builder.binding?_of_bracket ht rfl) hfits) ?_
    simpa [Node.expression] using ⟨ihcallee, ihargs⟩
  | access ht _ _ hfits ihtarget ihindex =>
    refine .of_parts (.of_application (Builder.binding?_of_bracket ht rfl) hfits) ?_
    simpa [Node.expression] using ⟨ihtarget, ihindex⟩
  | item _ ih | slot _ ih | condition _ ih => exact ih
  | strayWord => exact .leaf rfl rfl
  | slotWord => exact .leaf rfl rfl
  | strayDeclaration _ _ ih => exact ih
  | slotDeclaration _ ih => exact ih
  | always => exact Node.always_sound
  | expression _ _ ih => exact .of_other rfl (by simpa using ih)
  | block _ _ ih => exact .of_other rfl ih
  | declaration _ _ _ ih => exact .of_other rfl ih
  | goto _ _ _ ih => exact .of_other rfl (by simpa using ih)
  | leave _ _ _ ih => exact .of_other rfl ih
  | stop => exact .leaf rfl rfl
  | label => exact .leaf rfl rfl
  | branch _ _ _ ihc ihb =>
    refine .of_other rfl fun c hc => ?_
    obtain ⟨p, hp, hc⟩ := List.mem_flatMap.mp hc
    simp only [List.mem_cons, List.not_mem_nil, or_false] at hc
    rcases hc with rfl | rfl
    · exact ihc p hp
    · exact ihb p hp
  | whileLoop _ _ _ _ ihhead ihbody =>
    exact .of_other rfl (by simpa using ⟨ihhead, ihbody⟩)
  | @forLoop _ opening start condition step _ _ hu _ _ _ _ _ ihstart ihcond ihstep ihbody =>
    refine .of_other rfl ?_
    have hhead : (Node.expression opening [start, condition, step]).Sound :=
      .of_parts (.of_bracket hu rfl) (by simpa [Node.expression] using ⟨ihstart, ihcond, ihstep⟩)
    simpa using ⟨hhead, ihbody⟩
  | function _ _ hu _ _ _ _ ihname ihparams ihbody =>
    refine .of_other rfl ?_
    have hparams := Node.Sound.of_parts (.of_bracket hu rfl) ihparams
    simpa using ⟨ihname, hparams, ihbody⟩

namespace Builder

variable {b : Builder} {s : List Node} {ts us : List Token} {errors : List Diagnostic}

-- The stack behind a list of tokens.
structure Built (ts : List Token) (s : List Node) : Prop where
  stacked : Stacked s
  tokens : List.Forall₂ Token.Becomes (ts.filter Token.isCounted) (tokens s)
  opens : brackets [] ts = some (opens s)

theorem brackets_append (opened : List Operator) (ts us : List Token) :
    brackets opened (ts ++ us) = (brackets opened ts).bind (brackets · us) := by
  induction ts generalizing opened with
  | nil => rfl
  | cons t rest ih =>
    simp only [List.cons_append, brackets]
    repeat' split
    all_goals simp_all

theorem Built.push {t : Token} {s' : List Node} (h : Built ts s) (hp : Pushed t s s') :
    Built (ts ++ [t]) s' := by
  obtain ⟨us, htokens, hbecomes⟩ := hp.tokens
  refine ⟨hp.stacked, ?_, ?_⟩
  · rw [List.filter_append, htokens]
    exact List.rel_append h.tokens hbecomes
  · rw [brackets_append, h.opens]
    exact hp.opens

-- The whole run: each token adds to what the stack stands for.
theorem Built.pushTokens (h : Built ts b.stack) (hclean : Clean (b.pushTokens us).errors) :
    Built (ts ++ us) (b.pushTokens us).stack := by
  induction us generalizing b ts with
  | nil =>
    rw [List.append_nil]
    exact h
  | cons t rest ih =>
    have hfirst : Clean (b.pushToken t).errors := hclean.mono (pushTokens_errors rest)
    have hstep := h.push (pushToken_spec h.stacked hfirst)
    have hrun := ih hstep hclean
    rw [List.append_assoc] at hrun
    exact hrun

theorem Built.same {s' : List Node} (h : Built ts s) (hs : Stacked s') (hsame : Same s s') :
    Built ts s' :=
  ⟨hs, hsame.tokens ▸ h.tokens, hsame.opens ▸ h.opens⟩

theorem Built.closeLast (h : Built ts b.stack) (length : Nat)
    (hclean : Clean (b.closeLast length).errors) : Built ts (b.closeLast length).stack := by
  unfold Builder.closeLast at hclean ⊢
  split at hclean
  · rename_i hopen
    rw [if_pos hopen]
    simp only [Bool.and_eq_true, Option.isNone_iff_eq_none] at hopen
    rw [innermostBracket?_eq] at hopen
    obtain ⟨hs, hsame⟩ := completeStatement_spec h.stacked (.inl hopen.1) rfl hclean
    exact h.same hs hsame
  · rename_i hopen
    rw [if_neg hopen]
    exact h

theorem of_leftoverErrors {unclosed : Bool} {nodes : List Node}
    (hclean : Clean (leftoverErrors unclosed errors nodes)) :
    ∀ n ∈ nodes, n.openBracket? = none ∧ (n.isStatement = true ∨ unclosed = true) := by
  induction nodes generalizing errors with
  | nil => exact nofun
  | cons n rest ih =>
    have hstep : ∀ es, leftoverErrors unclosed errors (n :: rest) =
        leftoverErrors unclosed es rest → Clean es ∧ Clean (leftoverErrors unclosed es rest) := by
      intro es heq
      rw [heq] at hclean
      exact ⟨hclean.mono (leftoverErrors_subset unclosed rest), hclean⟩
    cases hopen : n.openBracket? with
    | some op =>
      obtain ⟨hbad, -⟩ := hstep (nodeError n (.unclosed op) :: errors) (by
        simp [leftoverErrors, hopen])
      exact hbad.not_nodeError.elim
    | none =>
      cases hfine : n.isStatement || unclosed with
      | false =>
        obtain ⟨hbad, -⟩ := hstep (nodeError n .incomplete :: errors) (by
          simp only [leftoverErrors, List.foldl_cons, hopen, hfine, Bool.false_eq_true, if_false])
        exact hbad.not_nodeError.elim
      | true =>
        obtain ⟨-, hrest⟩ := hstep errors (by
          simp only [leftoverErrors, List.foldl_cons, hopen, hfine, if_true])
        intro m hm
        rcases List.mem_cons.mp hm with rfl | hm
        · exact ⟨hopen, Bool.or_eq_true_iff.mp hfine⟩
        · exact ih hrest m hm

theorem Stacked.statements (hs : Stacked s) (h : ∀ n ∈ s, n.isStatement = true) :
    ∀ n ∈ s, Node.Statement n := by
  induction s with
  | nil => exact nofun
  | cons n rest ih =>
    obtain ⟨hn, -, hrest⟩ := hs.of_isStatement (h n (by simp))
    intro m hm
    rcases List.mem_cons.mp hm with rfl | hm
    · exact hn
    · exact ih hrest (fun c hc => h c (.tail _ hc)) m hm

theorem readingOf_reverse (s : List Node) : Node.readingOf s.reverse = readStack s := by
  induction s with
  | nil => rfl
  | cons n rest ih => simp [Node.readingOf_append, Node.readingOf, readStack, ih]

theorem clean_of_finish {source : String} {extra : List Diagnostic}
    (hfine : (b.finish source extra).hasErrors = false) :
    Clean (leftoverErrors (b.closeLast source.utf8ByteSize).innermostBracket?.isSome
      (b.closeLast source.utf8ByteSize).errors
      (b.closeLast source.utf8ByteSize).stack.reverse) := by
  intro d hd
  have hmem : d ∈ (b.finish source extra).errors := by
    refine List.mem_mergeSort.mpr ?_
    simp [hd]
  have := List.any_eq_false.mp hfine d hmem
  simpa using this

theorem Built.of_finish {source : String} {extra : List Diagnostic}
    (hsub : (empty.pushTokens ts).errors ⊆ b.errors)
    (hstack : b.stack = (empty.pushTokens ts).stack)
    (hfine : (b.finish source extra).hasErrors = false) : Built ts b.stack := by
  have hclean := ((clean_of_finish hfine).mono (leftoverErrors_subset _ _)).mono
    (closeLast_errors source.utf8ByteSize)
  have hempty : Built [] empty.stack := ⟨.nil, .nil, rfl⟩
  rw [hstack]
  exact hempty.pushTokens (hclean.mono hsub)

-- A source without errors ends with statements only, and with every bracket
-- closed.
theorem finish_spec {source : String} {extra : List Diagnostic} (h : Built ts b.stack)
    (hfine : (b.finish source extra).hasErrors = false) :
    ∃ body, (b.finish source extra).root = ⟨.program, none, body⟩ ∧
      (∀ c ∈ body, Node.Statement c) ∧ brackets [] ts = some [] ∧
      List.Forall₂ Token.Becomes (ts.filter Token.isCounted)
        ((b.finish source extra).root.reading.filter Token.isCounted) := by
  have hclean := clean_of_finish hfine
  have hbuilt := h.closeLast source.utf8ByteSize (hclean.mono (leftoverErrors_subset _ _))
  have hnodes := of_leftoverErrors hclean
  unfold Builder.finish
  simp only
  generalize b.closeLast source.utf8ByteSize = c at hbuilt hnodes
  have hopens : opens c.stack = [] :=
    List.filterMap_eq_nil_iff.mpr fun n hn => (hnodes n (by simpa using hn)).1
  have hstatements : ∀ n ∈ c.stack, n.isStatement = true := by
    intro n hn
    have hinner : c.innermostBracket? = none := by rw [innermostBracket?_eq, hopens]; rfl
    simpa [hinner] using (hnodes n (by simpa using hn)).2
  have hbody : c.program = ⟨.program, none, c.stack.reverse⟩ := by
    unfold program
    congr 1
    refine List.filter_eq_self.mpr fun n hn => ?_
    have hn : n ∈ c.stack := by simpa using hn
    simp [hstatements n hn, (hnodes n (by simpa using hn)).1]
  refine ⟨c.stack.reverse, hbody, ?_, ?_, ?_⟩
  · intro n hn
    exact hbuilt.stacked.statements hstatements n (by simpa using hn)
  · rw [hbuilt.opens, hopens]
  · rw [hbody]
    simp only [Node.reading, readingOf_reverse]
    exact hbuilt.tokens

-- Whatever tokens come in, a tree without errors reads them back and gives
-- every operator its operands.
theorem finish_reads (ts : List Token) (source : String) (extra : List Diagnostic)
    (hfine : ((empty.pushTokens ts).finish source extra).hasErrors = false) :
    ((empty.pushTokens ts).finish source extra).root.Reads ts := by
  obtain ⟨body, hroot, hbody, hbrackets, htokens⟩ :=
    finish_spec (.of_finish (List.Subset.refl _) rfl hfine) hfine
  refine ⟨htokens, hbrackets, ?_⟩
  rw [hroot]
  exact .of_parts (.of_kind nofun) fun c hc => (hbody c hc).sound

theorem finish_reads_mixed :
    ((empty.pushTokens ((Scan.ofSource "x = -a ^ b * f(c, !d)[e]++ - 2;").tokens.map Prod.fst)).finish
      "" []).hasErrors = false ∧
    ((empty.pushTokens ((Scan.ofSource "x = -a ^ b * f(c, !d)[e]++ - 2;").tokens.map Prod.fst)).finish
      "" []).root.Reads ((Scan.ofSource "x = -a ^ b * f(c, !d)[e]++ - 2;").tokens.map Prod.fst) :=
  ⟨by decide +kernel, finish_reads _ _ _ (by decide +kernel)⟩

end Builder

theorem Tree.parse_statements {source : String} (hfine : (Tree.parse source).hasErrors = false) :
    ∃ body, (Tree.parse source).root = ⟨.program, none, body⟩ ∧ ∀ c ∈ body, Node.Statement c := by
  unfold Tree.parse at hfine ⊢
  simp only at hfine ⊢
  have hfatal : ∀ (fatal : Option Diagnostic) (b : Builder),
      b.errors ⊆ (fatal.elim b b.record).errors ∧ (fatal.elim b b.record).stack = b.stack := by
    intro fatal b
    cases fatal with
    | none => exact ⟨List.Subset.refl _, rfl⟩
    | some d => exact ⟨Builder.record_errors d, rfl⟩
  obtain ⟨hsub, hstack⟩ := hfatal (Scan.ofSource source).fatal
    (Builder.empty.pushTokens ((Scan.ofSource source).tokens.map Prod.fst))
  obtain ⟨body, hroot, hbody, -⟩ := Builder.finish_spec (.of_finish hsub hstack hfine) hfine
  exact ⟨body, hroot, hbody⟩

end FinLang
