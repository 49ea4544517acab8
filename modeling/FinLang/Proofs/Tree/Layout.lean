import FinLang.Proofs.Token.Layout
import FinLang.Proofs.Tree.Alike

namespace FinLang

-- Tokens and trees with nothing said of where they stand.
def Token.unplaced (t : Token) : Token :=
  { t with position := .unknown, span := .zero }

namespace Node

mutual

def unplaced : Node → Node
  | ⟨kind, token, children⟩ => ⟨kind, token.map Token.unplaced, unplacedAll children⟩

def unplacedAll : List Node → List Node
  | [] => []
  | n :: ns => unplaced n :: unplacedAll ns

end

end Node

-- Tokens that read the same.
def Likeness.wording : Likeness where
  rel t u := t.kind = u.kind ∧ t.text = u.text
  kind h := h.1
  text h := h.2
  retag _ h := ⟨rfl, h.2⟩
  slot _ := ⟨rfl, rfl⟩
  semicolon _ := ⟨rfl, rfl⟩

theorem Token.unplaced_alike {t u : Token} (h : Likeness.wording.rel t u) : t.unplaced = u.unplaced := by
  obtain ⟨kind, text, position, span⟩ := t
  obtain ⟨rfl, rfl⟩ := h
  rfl

mutual

theorem Node.unplaced_alike : ∀ {n m : Node}, n.Alike .wording m → n.unplaced = m.unplaced
  | ⟨k, t, cs⟩, ⟨k', t', cs'⟩, h => by
    obtain rfl : k = k' := h.kind
    have ht : Option.Rel Likeness.wording.rel t t' := h.token
    have hcs := Node.unplacedAll_alike h.children
    have htoken : t.map Token.unplaced = t'.map Token.unplaced := by
      cases ht with
      | none => rfl
      | some ht => exact congrArg some (Token.unplaced_alike ht)
    rw [Node.unplaced, Node.unplaced, htoken, hcs]

theorem Node.unplacedAll_alike : ∀ {ns ms : List Node}, List.Forall₂ (Node.Alike .wording) ns ms →
    Node.unplacedAll ns = Node.unplacedAll ms
  | [], _, .nil => rfl
  | n :: ns, _, .cons h hs => by
    rw [Node.unplacedAll, Node.unplacedAll, Node.unplaced_alike h, Node.unplacedAll_alike hs]

end

-- The builder passes over comments.
theorem Builder.pushTokens_spoken (b : Builder) (ts : List Token) :
    b.pushTokens ts = b.pushTokens (ts.filter fun t => !t.isComment) := by
  induction ts generalizing b with
  | nil => rfl
  | cons t ts ih =>
    rw [List.filter_cons]
    split
    · exact ih _
    · rename_i ht
      have hskip : b.pushToken t = b := by
        unfold Builder.pushToken
        unfold Token.isComment at ht
        split at ht
        · rename_i hkind
          rw [hkind]
        · exact absurd rfl ht
      exact (congrArg (Builder.pushTokens · ts) hskip).trans (ih b)

namespace Tree

-- Parses that differ in nothing but places: the trees have one shape, and the
-- complaints say the same in some order.
structure Agrees (t u : Tree) : Prop where
  root : u.root.unplaced = t.root.unplaced
  errors : (u.errors.map Diagnostic.gist).Perm (t.errors.map Diagnostic.gist)

theorem agrees_of_words {source source' : String} (hclean : (Scan.ofSource source).Clean)
    (h : (Scan.ofSource source).Agrees (Scan.ofSource source')) :
    (Tree.parse source).Agrees (Tree.parse source') := by
  have hwords := h.words
  unfold Scan.words at hwords
  rw [← List.forall₂_eq_eq_eq, List.forall₂_map_left_iff, List.forall₂_map_right_iff] at hwords
  have hbuilt := Builder.Alike.pushTokens (R := .wording) .empty
    (hwords.imp fun _ _ heq => ⟨congrArg Prod.fst heq, congrArg Prod.snd heq⟩)
  obtain ⟨hfatal, hwarnings⟩ := hclean
  obtain ⟨hfatal', hwarnings'⟩ := h.clean ⟨hfatal, hwarnings⟩
  unfold Scan.spoken at hbuilt
  rw [← Builder.pushTokens_spoken, ← Builder.pushTokens_spoken] at hbuilt
  obtain ⟨hroot, herrors⟩ := @Builder.Alike.finish _ _ _ source' source [] [] hbuilt
    (fun _ _ => ⟨rfl, rfl⟩) rfl
  unfold Tree.parse
  simp only [hfatal, hfatal', hwarnings, hwarnings', Option.elim_none]
  exact ⟨Node.unplaced_alike hroot, herrors⟩

-- Layout does not matter.
theorem parse_respaced (source : String) (gap : Nat → List Char) (hclean : (Scan.ofSource source).Clean)
    (hgap : (Scan.ofSource source).Loosens gap) :
    let spaced := String.ofList (respace gap 0 source.toList)
    (Scan.ofSource source).Agrees (Scan.ofSource spaced) ∧
      (Tree.parse source).Agrees (Tree.parse spaced) := by
  intro spaced
  have hscan : (Scan.ofSource source).Agrees (Scan.ofSource spaced) := by
    refine (Scanner.scan_respaced hclean fun n _ hn => hgap n hn).2 ?_ rfl
    exact String.toList_ofList
  exact ⟨hscan, agrees_of_words hclean hscan⟩

theorem parse_respaced_quotient :
    let gap := fun n => if n = 1 then " /*/*/ ".toList else if n = 2 then "\n//z\n".toList else []
    (Scan.ofSource "x/y").Clean ∧ (Scan.ofSource "x/y").Loosens gap ∧
      (Scan.ofSource "x/y").Agrees (Scan.ofSource "x /*/*/ /\n//z\ny") ∧
      (Tree.parse "x/y").Agrees (Tree.parse "x /*/*/ /\n//z\ny") := by
  intro gap
  have hscan : Scan.ofSource "x/y" =
      ⟨[(⟨.variable, "x", ⟨1, 1⟩, ⟨0, 1⟩⟩, .operatorFirst),
        (⟨.operator .div, "/", ⟨1, 2⟩, ⟨1, 2⟩⟩, .numberFirst),
        (⟨.variable, "y", ⟨1, 3⟩, ⟨2, 3⟩⟩, .operatorFirst)], none, []⟩ := by
    rw [Scan.ofSource, Scanner.scan_of_next rfl, Scanner.scan_of_next rfl, Scanner.scan_of_next rfl,
      Scanner.scan_of_done rfl]
    rfl
  have hclean : (Scan.ofSource "x/y").Clean := by
    rw [hscan]
    exact ⟨rfl, rfl⟩
  have hgap : (Scan.ofSource "x/y").Loosens gap := by
    intro n hn
    rw [hscan]
    by_cases h1 : n = 1
    · subst h1
      refine ⟨⟨?_, ' ', rfl, rfl⟩, _, .tail _ (.head _), rfl⟩
      exact .blank rfl (@Filler.block ['/'] _ (by decide) (.blank rfl .nil))
    · by_cases h2 : n = 2
      · subst h2
        refine ⟨⟨?_, '\n', rfl, rfl⟩, _, .tail _ (.tail _ (.head _)), rfl⟩
        exact .blank rfl (@Filler.line ['z'] _ (by decide) (.blank rfl .nil))
      · exact absurd ((if_neg h1).trans (if_neg h2)) hn
  exact ⟨hclean, hgap, parse_respaced "x/y" gap hclean hgap⟩

end Tree

end FinLang
