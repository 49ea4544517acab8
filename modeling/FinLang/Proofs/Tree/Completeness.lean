import FinLang.Proofs.Tree.Assembly

namespace FinLang

-- A token at the start of the text.
def Token.bare (kind : TokenKind) (text : String) : Token :=
  ⟨kind, text, .start, .zero⟩

namespace Builder

variable {layout : Layout} {n : Node} {ns s : List Node} {t : Token} {ts us : List Token}
  {word : Keyword} {errors : List Diagnostic}

-- What pushing the tokens of statements does.
def Lays : Layout → List Node → List Token → Prop
  | .block, ns, ts => ∃ n close, ns = [n] ∧ n.isStatement = true ∧ ∀ s errors,
      (Builder.mk s errors).topWaiting? = none →
        (Builder.mk s errors).pushTokens ts = (Builder.mk s errors).attachBlock n close
  | .chain, ns, ts => ∃ n, ns = [n] ∧ n.isStatement = true ∧ isOpenBranch n = true ∧
      ∀ s errors, Idle s → (Builder.mk s errors).pushTokens ts = ⟨n :: s, errors⟩
  | .statement, ns, ts | .body, ns, ts => (∀ n ∈ ns, n.isStatement = true) ∧
      ∀ s errors, Idle s → (Builder.mk s errors).pushTokens ts = ⟨ns.reverse ++ s, errors⟩

theorem Lays.one (hn : n.isStatement = true)
    (h : ∀ s errors, Idle s → (Builder.mk s errors).pushTokens ts = ⟨n :: s, errors⟩) :
    Lays .statement [n] ts :=
  ⟨fun _ hm => List.mem_singleton.mp hm ▸ hn, h⟩

-- A condition and a block behind a keyword.
theorem pushTokens_conditional {opening : Token} {items : List Node} {body : Node}
    (hs : Idle s) (ht : t.kind = .keyword word) (hword : takesCondition word = true)
    (hhead : (Builder.mk (.ofToken t :: s) errors).pushTokens ts =
      ⟨.expression opening items :: .ofToken t :: s, errors⟩)
    (hbody : Lays .block [body] us) :
    (Builder.mk s errors).pushTokens (t :: ts ++ us) =
      (Builder.mk s errors).pushConditional (.ofToken t) (.expression opening items) body word := by
  obtain ⟨n, close, heq, -, hblock⟩ := hbody
  cases heq
  rw [List.cons_append, pushTokens_cons, pushToken_word hs ht, pushTokens_append, hhead,
    hblock _ _ topWaiting?_of_expression, attachBlock_condition ht hword]

theorem isParen {opening : Token} {items : List Node} (ho : opening.operator? = some .leftParen) :
    ((Node.expression opening items).kind == .expression &&
      (Node.expression opening items).operator? == some .leftParen) = true := by
  simp [Node.expression, Node.operator?, ho]

theorem lays_of_prints (h : PrintsAll layout ns ts) : Lays layout ns ts := by
  induction h with
  | none => exact ⟨nofun, fun _ _ _ => rfl⟩
  | @more ns n ts us _ _ ihs ih =>
    obtain ⟨hstatements, hpush⟩ := ihs
    obtain ⟨hstatement, hpush'⟩ := ih
    refine ⟨fun m hm => ?_, fun s errors hs => ?_⟩
    · exact (List.mem_append.mp hm).elim (hstatements m) (hstatement m)
    · rw [pushTokens_append, hpush s errors hs, hpush' _ errors (hs.statements hstatements)]
      simp
  | @block opening close ns ts ho hc _ ih =>
    obtain ⟨hstatements, hpush⟩ := ih
    exact ⟨_, close, rfl, rfl, fun s errors hwait =>
      pushTokens_block ho hc hstatements (hpush _ _ (.brace ho)) hwait⟩
  | nested _ ih =>
    obtain ⟨n, close, heq, hn, hpush⟩ := ih
    cases heq
    exact .one hn fun s errors hs => by rw [hpush s errors hs.topWaiting?, attachBlock_idle hs]
  | expression he hsemi => exact .one rfl fun s errors hs => pushTokens_expression hs he hsemi
  | declaration h hsemi =>
    obtain ⟨ht, he, hparts⟩ := h
    refine .one rfl fun s errors hs => ?_
    rw [pushTokens_wordWith hs ht he hsemi]
    simp only [pushKeywordStatement, declarationErrors_of_declarators hparts]
  | goto ht hname hsemi =>
    refine .one rfl fun s errors hs => ?_
    refine (pushTokens_wordWith hs ht (.token (Token.isValue_of_name hname)) hsemi).trans ?_
    simp [pushKeywordStatement, Node.name?_ofToken hname, push]
  | leave ht hword hsemi =>
    refine .one rfl fun s errors hs => ?_
    rw [pushTokens_wordAlone hs ht hsemi]
    rcases hword with rfl | rfl <;> rfl
  | leaveWith ht hword he hsemi =>
    refine .one rfl fun s errors hs => ?_
    rw [pushTokens_wordWith hs ht he hsemi]
    rcases hword with rfl | rfl <;> rfl
  | stop ht hword hsemi =>
    refine .one rfl fun s errors hs => ?_
    rw [pushTokens_wordAlone hs ht hsemi]
    rcases hword with rfl | rfl <;> rfl
  | label hname hcolon => exact .one rfl fun s errors hs => pushTokens_label hs hname hcolon
  | @function name opening params body ts us hname ho hgroup hparams _ ih =>
    obtain ⟨n, close, heq, -, hblock⟩ := ih
    cases heq
    refine .one rfl fun s errors hs => ?_
    obtain ⟨opening', op, items, heq, hop, -, hpush⟩ := pushes_of_prints hgroup
    cases heq
    cases ho.symm.trans hop
    have hvalue := Token.isValue_of_name hname
    have hall : (params.all fun p => p.name?.isSome) = true := List.all_eq_true.mpr hparams
    have hcall : (Builder.mk (.ofToken name :: s) errors).pushGroup opening .leftParen params =
        ⟨.expression { opening with kind := .operator .call }
          [.ofToken name, .expression opening params] :: s, errors⟩ := by
      simp [pushGroup, hvalue]
    have htoken : (Node.ofToken name).token = some name := rfl
    rw [List.cons_append, pushTokens_cons, pushToken_value hvalue hs.ground.room, pushTokens_append,
      hpush, hcall, hblock _ _ topWaiting?_of_expression, attachBlock_call hs]
    simp only [defineFunction, Node.expression, Node.name?_ofToken hname, Option.isSome_some, hall,
      if_true, htoken, push]
  | @ifThen t opening items body ts us ht ho hgroup _ ih =>
    refine ⟨_, rfl, rfl, ?_, fun s errors hs => ?_⟩
    · simp [isOpenBranch, Node.expression]
    · rw [pushTokens_conditional hs ht rfl (pushTokens_group hgroup (.keyword ht)) ih, pushConditional]
      simp only [isParen ho, if_true]
      rfl
  | @elif branch t opening items body ts us vs _ ht ho hgroup _ ihc ihb =>
    obtain ⟨n, heq, hn, hopen, hpush⟩ := ihc
    cases heq
    refine ⟨_, rfl, hn, isOpenBranch_extend hopen, fun s errors hs => ?_⟩
    rw [List.append_assoc, pushTokens_append, hpush s errors hs,
      pushTokens_conditional (hs.statement hn) ht rfl (pushTokens_group hgroup (.keyword ht)) ihb,
      pushConditional]
    simp only [isParen ho, if_true, hopen]
  | branch _ ih =>
    obtain ⟨n, heq, hn, -, hpush⟩ := ih
    cases heq
    exact .one hn hpush
  | @otherwise branch t body ts us _ ht _ ihc ihb =>
    obtain ⟨n, heq, hn, hopen, hpush⟩ := ihc
    cases heq
    obtain ⟨m, close, heq, -, hblock⟩ := ihb
    cases heq
    refine .one hn fun s errors hs => ?_
    rw [pushTokens_append, hpush s errors hs, pushTokens_cons, pushToken_word (hs.statement hn) ht,
      hblock _ _ (topWaiting?_of_word ht), attachBlock_else ht hopen]
  | @whileLoop t opening items body ts us ht ho hgroup _ ih =>
    refine .one rfl fun s errors hs => ?_
    rw [pushTokens_conditional hs ht rfl (pushTokens_group hgroup (.keyword ht)) ih, pushConditional]
    simp only [isParen ho, if_true]
    rfl
  | @forLoop t opening first second close start condition step body ss cs us vs ht ho hfirst hsecond
      hclose hstart hcondition hstep _ ih =>
    refine .one rfl fun s errors hs => ?_
    have hhead : (Builder.mk (.ofToken t :: s) errors).pushTokens _ =
        ⟨.expression opening _ :: .ofToken t :: s, errors⟩ :=
      pushTokens_head (.keyword ht) ho hfirst hsecond hclose hstart hcondition hstep
    have hloop := pushTokens_conditional hs ht rfl hhead ih
    unfold pushConditional at hloop
    simp only [isParen (Token.operator?_of_kind ho), if_true] at hloop
    simpa [Node.expression, Node.ofToken, push] using hloop

theorem leftoverErrors_statements {unclosed : Bool} (h : ∀ n ∈ ns, n.isStatement = true) :
    leftoverErrors unclosed errors ns = errors := by
  induction ns with
  | nil => rfl
  | cons n rest ih =>
    have hn := h n (List.mem_cons_self ..)
    simp only [leftoverErrors, List.foldl_cons, Node.openBracket?_of_isStatement hn, hn, Bool.true_or,
      if_true]
    exact ih fun m hm => h m (List.mem_cons_of_mem _ hm)

-- Reading what a program is printed as gives the program, and no complaints.
theorem finish_prints {root : Node} (h : PrintsProgram root ts) (source : String) :
    (empty.pushTokens ts).finish source [] = ⟨root, Source.lines source, []⟩ := by
  obtain ⟨hbody⟩ := h
  rename_i body
  obtain ⟨hstatements, hpush⟩ := lays_of_prints hbody
  have hall : ∀ n ∈ body.reverse, n.isStatement = true := fun n hn =>
    hstatements n (List.mem_reverse.mp hn)
  have hidle : Idle (body.reverse ++ []) := Idle.nil.statements hstatements
  rw [List.append_nil] at hidle
  have hlast : (Builder.mk body.reverse []).closeLast source.utf8ByteSize =
      ⟨body.reverse, []⟩ := by
    have htop : isBoundary (Builder.mk body.reverse []).top? = true := hidle.boundary
    simp only [closeLast, htop, Bool.not_true, Bool.and_false, Bool.false_eq_true, if_false]
  have hfilter : (body.filter fun n => n.openBracket?.isNone && n.isStatement) = body :=
    List.filter_eq_self.mpr fun n hn => by
      simp [Node.openBracket?_of_isStatement (hstatements n hn), hstatements n hn]
  rw [show empty.pushTokens ts = ⟨body.reverse ++ [], []⟩ from hpush [] [] .nil, List.append_nil]
  simp only [finish, hlast, List.reverse_reverse, leftoverErrors_statements hstatements, program,
    hfilter]
  simp [Diagnostic.sort]

-- `for (var i = a;; i++) { f(b,,-c[i]); }`
theorem finish_prints_for :
    let name text := Token.bare .variable text
    let symbol op := Token.bare (.operator op) op.symbol
    let word k := Token.bare (.keyword k) k.text
    let item := Node.ofToken
    let index := Node.expression (symbol .access) [item (name "c"), item (name "i")]
    let args := Node.expression (symbol .leftParen)
      [item (name "b"), item (symbol .comma).slotBefore,
        Node.expression (Token.bare (.operator .negative) "-") [index]]
    let root : Node := ⟨.program, none,
      [⟨.loop, some (word .forWord),
        [.expression (symbol .leftParen)
          [⟨.declare, some (word .varWord),
              [.expression (symbol .assign) [item (name "i"), item (name "a")]]⟩,
            item (symbol .semicolon).slotBefore,
            .expression (symbol .postIncrement) [item (name "i")]],
          ⟨.statement, some (symbol .leftBrace),
            [⟨.statement, some (symbol .semicolon),
              [.expression (symbol .call) [item (name "f"), args]]⟩]⟩]⟩]⟩
    let ts := [word .forWord, symbol .leftParen, word .varWord, name "i", symbol .assign, name "a",
      symbol .semicolon, symbol .semicolon, name "i", symbol .postIncrement, symbol .rightParen,
      symbol .leftBrace, name "f", symbol .leftParen, name "b", symbol .comma, symbol .comma,
      symbol .sub, name "c", symbol .leftBracket, name "i", symbol .rightBracket,
      symbol .rightParen, symbol .semicolon, symbol .rightBrace]
    PrintsProgram root ts ∧ (empty.pushTokens ts).finish "" [] = ⟨root, [], []⟩ := by
  intro name symbol word item index args root ts
  have hname : ∀ text, Prints .value (item (name text)) [name text] := fun text => .token rfl
  have hround : Token.Brackets (symbol .leftParen) (symbol .rightParen) .leftParen :=
    ⟨rfl, ⟨_, rfl, rfl⟩, .inl rfl⟩
  have hsquare : Token.Brackets (symbol .leftBracket) (symbol .rightBracket) .leftBracket :=
    ⟨rfl, ⟨_, rfl, rfl⟩, .inr rfl⟩
  have hprints : PrintsProgram root ts := by
    have hitem : Prints .group (.expression (symbol .leftBracket) [item (name "i")])
        [symbol .leftBracket, name "i", symbol .rightBracket] := .filled hsquare (.only (hname "i"))
    have hindex : Prints .value index [name "c", symbol .leftBracket, name "i", symbol .rightBracket] := by
      have := Prints.access (hname "c") hitem rfl fun _ => nofun
      exact this
    have hargs : Prints .group args [symbol .leftParen, name "b", symbol .comma, symbol .comma,
        symbol .sub, name "c", symbol .leftBracket, name "i", symbol .rightBracket,
        symbol .rightParen] :=
      .filled hround (@Prints.next _ (symbol .comma) _ _ _ _ rfl
        (@Prints.nextEmpty _ (symbol .comma) _ _ rfl (.only (hname "b")))
        (.leading (u := symbol .sub) (.inr ⟨.sub, _, .negative, rfl, rfl, rfl, rfl⟩) rfl rfl hindex
          fun _ => nofun)
        ⟨Node.before_comma, fun _ => nofun⟩)
    have hcall := Prints.call (hname "f") hargs rfl fun _ => nofun
    have hdeclare : PrintsDeclaration ⟨.declare, some (word .varWord),
        [.expression (symbol .assign) [item (name "i"), item (name "a")]]⟩
        [word .varWord, name "i", symbol .assign, name "a"] :=
      .mk rfl (.infixed (t := symbol .assign) rfl rfl rfl (hname "i") (hname "a")
        ⟨fun _ => nofun, fun _ => nofun⟩) fun c hc => by
          cases List.mem_singleton.mp hc
          rfl
    have hstep : Prints .value (.expression (symbol .postIncrement) [item (name "i")])
        [name "i", symbol .postIncrement] :=
      .trailing rfl rfl rfl (hname "i") fun _ => nofun
    have hcalled : PrintsAll .statement [⟨.statement, some (symbol .semicolon),
        [.expression (symbol .call) [item (name "f"), args]]⟩] _ := .expression hcall rfl
    have hbody : PrintsAll .block [⟨.statement, some (symbol .leftBrace), _⟩]
        (symbol .leftBrace :: _ ++ [symbol .rightBrace]) := .block rfl rfl (.more .none hcalled)
    have hstart : PrintsStart (symbol .semicolon) _ _ := .declaration hdeclare
    have hcondition : PrintsPart (symbol .semicolon) _ [] := .empty
    have hlast : PrintsPart (symbol .rightParen) _ _ := .expression hstep
    have hloop : PrintsAll .statement [⟨.loop, some (word .forWord),
        [.expression (symbol .leftParen) _, _]⟩] _ :=
      .forLoop rfl rfl rfl rfl rfl hstart hcondition hlast hbody
    exact .mk (.more .none hloop)
  exact ⟨hprints, finish_prints hprints ""⟩

end Builder

end FinLang
