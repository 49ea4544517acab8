import FinLang.Proofs.Arena
import FinLang.Store.Heap.Basic

namespace FinLang

namespace Heap

abbrev var? (h : Heap) (id : VarId) : Option Variable :=
  h.arena.get? id

def Live (h : Heap) (id : VarId) : Prop :=
  ∃ v, h.var? id = some v

-- The first variable is an array with the second one among its elements.
def Lists (h : Heap) (p c : VarId) : Prop :=
  ∃ v, h.var? p = some v ∧ c ∈ v.payload.elements

-- A variable that lies in no array.
def Root (h : Heap) (id : VarId) : Prop :=
  h.Live id ∧ ∀ p, ¬h.Lists p id

-- The elements of a variable in depth, the variable itself included.
inductive Below (h : Heap) (top : VarId) : VarId → Prop
  | refl : Below h top top
  | step {p c : VarId} : Below h top p → h.Lists p c → Below h top c

-- How many arrays a variable lies in.
inductive Depth (h : Heap) : VarId → Nat → Prop
  | root {c : VarId} : h.Root c → Depth h c 0
  | element {p c : VarId} {n : Nat} : Depth h p n → h.Lists p c → Depth h c (n + 1)

-- Elements are nested less deep than the given number.
def Within (h : Heap) : Nat → VarId → Prop
  | 0, _ => False
  | n + 1, id => ∃ v, h.var? id = some v ∧ ∀ c ∈ v.payload.elements, h.Within n c

-- Arrays own their elements, each in one place, and no array lies in itself.
-- While a structure is being built or taken apart some variables name an array
-- that does not have them; these are the loose ones.
structure Forest (h : Heap) (loose : List VarId) : Prop where
  arena : h.arena.Sound
  element : ∀ {p c}, h.Lists p c →
    ∃ w, h.var? c = some w ∧ w.owner = .array p ∧ ∀ t, w.payload ≠ .link t
  nodup : ∀ {p v}, h.var? p = some v → v.payload.elements.toList.Nodup
  listed : ∀ {c w p}, h.var? c = some w → w.owner = .array p → c ∈ loose ∨ h.Lists p c
  loose_nodup : loose.Nodup
  loose_root : ∀ {c}, c ∈ loose → h.Root c
  depth : ∀ {c}, h.Live c → ∃ n, h.Depth c n

-- An array and its elements are left-values together.
structure Flagged (h : Heap) : Prop where
  left : ∀ {p c v w}, h.var? p = some v → h.var? c = some w → c ∈ v.payload.elements →
    w.leftValue = v.leftValue

-- What has no owner is neither a left-value nor a link, what a scope owns is a
-- left-value, and so is what a link points to. Loose variables are about to get
-- an owner or a flag.
structure Ruled (h : Heap) (loose : List VarId) : Prop where
  temporary : ∀ {c w}, h.var? c = some w → c ∉ loose → w.owner = .detached → w.leftValue = false
  plain : ∀ {c w}, h.var? c = some w → c ∉ loose → w.owner = .detached → ∀ t, w.payload ≠ .link t
  bound : ∀ {c w s}, h.var? c = some w → c ∉ loose → w.owner = .scope s → w.leftValue = true
  target : ∀ {l v t w}, h.var? l = some v → l ∉ loose → v.payload = .link t → h.var? t = some w →
    w.leftValue = true

-- What a variable links to is a left-value.
def Aimed (h : Heap) (id : VarId) : Prop :=
  ∀ v t w, h.var? id = some v → v.payload = .link t → h.var? t = some w → w.leftValue = true

-- A link points to a variable that is no link and knows the link, once.
structure Linked (h : Heap) : Prop where
  link : ∀ {l v t}, h.var? l = some v → v.payload = .link t →
    ∃ w, h.var? t = some w ∧ l ∈ w.linkedBy ∧ ∀ u, w.payload ≠ .link u
  linked : ∀ {t w l}, h.var? t = some w → l ∈ w.linkedBy →
    ∃ v, h.var? l = some v ∧ v.payload = .link t
  once : ∀ {t w}, h.var? t = some w → w.linkedBy.Nodup

-- A heap holds together whatever its owners are used for. The rules about them
-- are asked for where temporaries and bindings are told apart.
structure Sound (h : Heap) (loose : List VarId) (strict : Prop := True) : Prop where
  forest : h.Forest loose
  flagged : h.Flagged
  ruled : strict → h.Ruled loose
  linked : h.Linked

def OwnedBy (h : Heap) (id : VarId) (o : Owner) : Prop :=
  ∃ v, h.var? id = some v ∧ v.owner = o

abbrev Detached (h : Heap) (id : VarId) : Prop :=
  h.OwnedBy id .detached

-- A set of variables that takes in whole trees and both ends of links.
structure Closed (h : Heap) (K : VarId → Prop) : Prop where
  live : ∀ {id}, K id → h.Live id
  element : ∀ {p c}, h.Lists p c → (K c ↔ K p)
  link : ∀ {l v t}, h.var? l = some v → v.payload = .link t → (K l ↔ K t)

-- The variables of a set are left as they are.
def Keeps (K : VarId → Prop) (h h' : Heap) : Prop :=
  ∀ id, K id → h'.var? id = h.var? id

variable {h h' : Heap} {loose : List VarId} {K : VarId → Prop} {id p c top : VarId} {v w : Variable}

theorem Live.of_var? (hv : h.var? id = some v) : h.Live id :=
  ⟨v, hv⟩

theorem not_live_of_var? (hv : h.var? id = none) : ¬h.Live id := by
  rintro ⟨v, hlive⟩
  cases hv.symm.trans hlive

theorem Aimed.of_no_link (hv : h.var? id = some v) (hl : ∀ t, v.payload ≠ .link t) : h.Aimed id :=
  fun _ t _ hv' ht _ => absurd (Option.some.inj (hv.symm.trans hv') ▸ ht) (hl t)

theorem sound_empty {strict : Prop} : Heap.empty.Sound [] strict where
  forest := ⟨Arena.sound_empty, nofun, nofun, nofun, List.nodup_nil, nofun, nofun⟩
  flagged := ⟨nofun⟩
  ruled _ := ⟨nofun, nofun, nofun, nofun⟩
  linked := ⟨nofun, nofun, nofun⟩

theorem Sound.rules (hs : h.Sound loose) : h.Ruled loose :=
  hs.ruled trivial

theorem contains_iff : h.contains id = true ↔ h.Live id :=
  Arena.contains_iff

theorem Lists.live (hl : h.Lists p c) : h.Live p :=
  hl.imp fun _ hv => hv.1

theorem closed_nothing : h.Closed fun _ => False :=
  ⟨False.elim, fun _ => .rfl, fun _ _ => .rfl⟩

theorem Keeps.refl : Keeps K h h :=
  fun _ _ => rfl

theorem Keeps.trans {h'' : Heap} (h₁ : Keeps K h h') (h₂ : Keeps K h' h'') : Keeps K h h'' :=
  fun id hid => (h₂ id hid).trans (h₁ id hid)

theorem Keeps.mono {J : VarId → Prop} (hk : Keeps K h h') (hj : ∀ id, J id → K id) :
    Keeps J h h' :=
  fun id hid => hk id (hj id hid)

theorem Below.trans {mid : VarId} (h₁ : h.Below top mid) (h₂ : h.Below mid id) :
    h.Below top id := by
  induction h₂ with
  | refl => exact h₁
  | step _ hl ih => exact ih.step hl

theorem Below.head (hb : h.Below top id) : id = top ∨ ∃ c, h.Lists top c ∧ h.Below c id := by
  induction hb with
  | refl => exact .inl rfl
  | step _ hl ih =>
    right
    rcases ih with rfl | ⟨c, hc, hb⟩
    · exact ⟨_, hl, .refl⟩
    · exact ⟨c, hc, hb.step hl⟩

theorem Below.live (hb : h.Below top c) (hs : h.Forest loose) (ht : h.Live top) : h.Live c := by
  cases hb with
  | refl => exact ht
  | step _ hl =>
    obtain ⟨w, hw, -⟩ := hs.element hl
    exact ⟨w, hw⟩

-- What lies in a root is that root.
theorem Below.eq_of_root (hb : h.Below top c) (hc : ∀ p, ¬h.Lists p c) : c = top := by
  cases hb with
  | refl => rfl
  | step _ hl => exact absurd hl (hc _)

theorem Closed.below (hk : h.Closed K) (hb : h.Below top c) : K c ↔ K top := by
  induction hb with
  | refl => rfl
  | step _ hl ih => exact (hk.element hl).trans ih

namespace Forest

-- An element lies in one array only.
theorem parent_unique {q : VarId} (hs : h.Forest loose) (hp : h.Lists p c) (hq : h.Lists q c) :
    p = q := by
  obtain ⟨w, hw, ho, -⟩ := hs.element hp
  obtain ⟨w', hw', ho', -⟩ := hs.element hq
  rw [hw] at hw'
  cases hw'
  rw [ho] at ho'
  exact Owner.array.inj ho'

theorem depth_unique {m n : Nat} (hs : h.Forest loose) (hm : h.Depth c m) (hn : h.Depth c n) :
    m = n := by
  induction hm generalizing n with
  | root hr =>
    cases hn with
    | root => rfl
    | element _ hl => exact absurd hl (hr.2 _)
  | element _ hl ih =>
    cases hn with
    | root hr => exact absurd hl (hr.2 _)
    | element hd hl' =>
      cases hs.parent_unique hl hl'
      rw [ih hd]

theorem depth_live {n : Nat} (hs : h.Forest loose) (hd : h.Depth c n) : h.Live c := by
  cases hd with
  | root hr => exact hr.1
  | element _ hl =>
    obtain ⟨w, hw, -⟩ := hs.element hl
    exact ⟨w, hw⟩

-- The arrays around a variable, all different, together with itself.
private theorem exists_chain {n : Nat} (hs : h.Forest loose) (hd : h.Depth c n) :
    ∃ l : List VarId, l.length = n + 1 ∧ l.Nodup ∧ ∀ x ∈ l, ∃ m ≤ n, h.Depth x m := by
  induction hd with
  | @root c hr => exact ⟨[c], rfl, by simp, by simpa using Depth.root hr⟩
  | @element p c n hd hl ih =>
    obtain ⟨l, hlen, hnd, hmem⟩ := ih
    have hc : h.Depth c (n + 1) := .element hd hl
    refine ⟨c :: l, by simp [hlen], List.nodup_cons.mpr ⟨fun hin => ?_, hnd⟩, fun x hx => ?_⟩
    · obtain ⟨m, hle, hm⟩ := hmem c hin
      have := hs.depth_unique hm hc
      omega
    · rcases List.mem_cons.mp hx with rfl | hx
      · exact ⟨n + 1, Nat.le_refl _, hc⟩
      · obtain ⟨m, hle, hm⟩ := hmem x hx
        exact ⟨m, by omega, hm⟩

theorem depth_lt_live {n : Nat} (hs : h.Forest loose) (hd : h.Depth c n) : n < h.arena.live := by
  obtain ⟨l, hlen, hnd, hmem⟩ := hs.exists_chain hd
  have := hs.arena.length_le_live hnd fun x hx =>
    let ⟨_, _, hx⟩ := hmem x hx
    hs.depth_live hx
  omega

-- Walks from array to elements end before the budget does.
private theorem within_of_depth (hs : h.Forest loose) {n m : Nat} (hd : h.Depth c m)
    (hn : h.arena.live ≤ n + m) : h.Within n c := by
  induction n generalizing c m with
  | zero =>
    have := hs.depth_lt_live hd
    omega
  | succ n ih =>
    obtain ⟨v, hv⟩ := hs.depth_live hd
    exact ⟨v, hv, fun x hx => ih (.element hd ⟨v, hv, hx⟩) (by omega)⟩

theorem within (hs : h.Forest loose) (hc : h.Live c) : h.Within h.walkBudget c := by
  obtain ⟨m, hd⟩ := hs.depth hc
  have := hs.arena.live_le_size
  exact hs.within_of_depth hd (by unfold walkBudget; omega)

-- No array lies in itself.
theorem not_below_of_lists (hs : h.Forest loose) (hl : h.Lists p c) : ¬h.Below c p := by
  have hmono : ∀ {x y : VarId}, h.Below x y → ∀ {m n : Nat}, h.Depth x m → h.Depth y n → m ≤ n := by
    intro x y hb
    induction hb with
    | refl =>
      intro m n hm hn
      exact Nat.le_of_eq (hs.depth_unique hm hn)
    | step _ hl ih =>
      intro m n hm hn
      cases hn with
      | root hr => exact absurd hl (hr.2 _)
      | element hd hl' =>
        cases hs.parent_unique hl hl'
        have := ih hm hd
        omega
  intro hb
  obtain ⟨n, hd⟩ := hs.depth hl.live
  have := hmono hb (.element hd hl) hd
  omega

-- What lies in an array is no link.
theorem no_link_of_below (hs : h.Forest loose) (hb : h.Below top c) (hne : c ≠ top)
    (hv : h.var? c = some v) : ∀ t, v.payload ≠ .link t := by
  cases hb with
  | refl => exact absurd rfl hne
  | step _ hl =>
    obtain ⟨w, hw, -, hno⟩ := hs.element hl
    cases hv.symm.trans hw
    exact hno

-- Every variable lies in one root.
theorem exists_root (hs : h.Forest loose) (hc : h.Live c) : ∃ r, h.Root r ∧ h.Below r c := by
  obtain ⟨n, hd⟩ := hs.depth hc
  induction hd with
  | root hr => exact ⟨_, hr, .refl⟩
  | element _ hl ih =>
    obtain ⟨r, hr, hb⟩ := ih hl.live
    exact ⟨r, hr, hb.step hl⟩

theorem root_unique {r r' : VarId} (hs : h.Forest loose) (hr : h.Root r) (hr' : h.Root r')
    (hb : h.Below r c) (hb' : h.Below r' c) : r = r' := by
  induction hb with
  | refl => exact hb'.eq_of_root hr.2
  | step _ hl ih =>
    cases hb' with
    | refl => exact absurd hl (hr'.2 _)
    | step hb' hl' =>
      cases hs.parent_unique hl hl'
      exact ih hb'

-- A variable without an array as its owner lies in no array.
theorem root_of_owner (hs : h.Forest loose) (hv : h.var? c = some v)
    (ho : ∀ p, v.owner ≠ .array p) : h.Root c := by
  refine ⟨⟨v, hv⟩, fun p hl => ?_⟩
  obtain ⟨w, hw, how, -⟩ := hs.element hl
  rw [hv] at hw
  cases hw
  exact ho p how

-- A root is owned by no array.
theorem owner_of_root (hs : h.Forest []) (hr : h.Root c) (hv : h.var? c = some v) :
    ∀ p, v.owner ≠ .array p :=
  fun p ho => hr.2 p ((hs.listed hv ho).resolve_left (by simp))

theorem root_of_detached (hs : h.Forest loose) (hd : h.Detached c) : h.Root c := by
  obtain ⟨v, hv, ho⟩ := hd
  exact hs.root_of_owner hv (by simp [ho])

end Forest

end Heap

end FinLang
