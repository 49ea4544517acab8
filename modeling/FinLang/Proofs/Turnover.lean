import FinLang.Proofs.Arena
import FinLang.Proofs.Ensures
import Mathlib.Algebra.Group.Nat.Defs
import Mathlib.Logic.Relation

namespace FinLang

namespace Arena

variable {k : HandleKind} {α : Type} {a b c : Arena k α} {h x : Handle k} {i : Nat} {t : Slot α}

-- Entries may have been changed and slots freed, but no slot has been filled since.
structure Sheds (a b : Arena k α) : Prop where
  sound : a.Sound → b.Sound
  size : b.slots.size = a.slots.size
  slot : ∀ {i : Nat} {s : Slot α}, a.slots[i]? = some s → ∃ s' : Slot α, b.slots[i]? = some s' ∧
    (s'.generation = s.generation ∧ s'.entry.isSome = s.entry.isSome ∨
      s'.generation = s.generation + 1 ∧ s.entry.isSome = true ∧ s'.entry = none)

-- Entries may have been changed and slots filled, but none has been freed since.
structure Gains (a b : Arena k α) : Prop where
  sound : a.Sound → b.Sound
  slot : ∀ {i : Nat} {s : Slot α}, a.slots[i]? = some s → ∃ s' : Slot α, b.slots[i]? = some s' ∧
    s'.generation = s.generation ∧ (s.entry.isSome = true → s'.entry.isSome = true)
  new : ∀ {i : Nat} {s' : Slot α}, a.slots[i]? = none → b.slots[i]? = some s' → s'.generation = 0

-- What an operation does to the slots: first some are freed, then some are filled. So none is freed twice.
def Turns : Arena k α → Arena k α → Prop :=
  Relation.Comp Sheds Gains

theorem Sheds.refl (a : Arena k α) : Sheds a a :=
  ⟨id, rfl, fun hs => ⟨_, hs, .inl ⟨rfl, rfl⟩⟩⟩

theorem Sheds.trans (h₁ : Sheds a b) (h₂ : Sheds b c) : Sheds a c where
  sound := h₂.sound ∘ h₁.sound
  size := h₂.size.trans h₁.size
  slot hs := by
    obtain ⟨s₁, hs₁, hcase⟩ := h₁.slot hs
    obtain ⟨s₂, hs₂, hcase'⟩ := h₂.slot hs₁
    refine ⟨s₂, hs₂, ?_⟩
    rcases hcase with ⟨hg, he⟩ | ⟨hg, he, hnone⟩ <;> rcases hcase' with ⟨hg', he'⟩ | ⟨hg', he', hnone'⟩
    · exact .inl ⟨hg'.trans hg, he'.trans he⟩
    · exact .inr ⟨by rw [hg', hg], he ▸ he', hnone'⟩
    · exact .inr ⟨hg'.trans hg, he, by simpa [hnone] using he'⟩
    · simp [hnone] at he'

theorem Gains.refl (a : Arena k α) : Gains a a :=
  ⟨id, fun hs => ⟨_, hs, rfl, id⟩, fun hn hs => by cases hn.symm.trans hs⟩

theorem Gains.trans (h₁ : Gains a b) (h₂ : Gains b c) : Gains a c where
  sound := h₂.sound ∘ h₁.sound
  slot hs := by
    obtain ⟨s₁, hs₁, hg, he⟩ := h₁.slot hs
    obtain ⟨s₂, hs₂, hg', he'⟩ := h₂.slot hs₁
    exact ⟨s₂, hs₂, hg'.trans hg, he' ∘ he⟩
  new {i s₂} hn hs₂ := by
    rcases hb : b.slots[i]? with _ | s₁
    · exact h₂.new hb hs₂
    · obtain ⟨s, hs, hg, -⟩ := h₂.slot hb
      cases hs.symm.trans hs₂
      exact hg.trans (h₁.new hn hb)

theorem Sheds.turns (hs : Sheds a b) : Turns a b :=
  ⟨b, hs, .refl b⟩

theorem Gains.turns (hg : Gains a b) : Turns a b :=
  ⟨a, .refl a, hg⟩

theorem Turns.refl (a : Arena k α) : Turns a a :=
  (Gains.refl a).turns

theorem Turns.sound (ht : Turns a b) (ha : a.Sound) : b.Sound := by
  obtain ⟨m, hs, hg⟩ := ht
  exact hg.sound (hs.sound ha)

section Steps

variable {f : α → α}

private theorem slot_modify {s : Slot α} (hs : a.slots[i]? = some s) :
    ∃ s' : Slot α, (a.modify h f).slots[i]? = some s' ∧ s'.generation = s.generation ∧
      s'.entry.isSome = s.entry.isSome := by
  simp only [modify, Array.getElem?_modify, hs, Option.map_some]
  split
  · split
    · exact ⟨_, rfl, rfl, by simp⟩
    · exact ⟨_, rfl, rfl, rfl⟩
  · exact ⟨_, rfl, rfl, rfl⟩

theorem sheds_modify : Sheds a (a.modify h f) where
  sound ha := sound_modify ha h f
  size := size_modify h f
  slot hs := (slot_modify hs).imp fun _ hs' => ⟨hs'.1, .inl hs'.2⟩

theorem gains_modify : Gains a (a.modify h f) where
  sound ha := sound_modify ha h f
  slot hs := (slot_modify hs).imp fun _ hs' => ⟨hs'.1, hs'.2.1, fun he => hs'.2.2.trans he⟩
  new {i _} hn hs := by
    have hlt := (Array.getElem?_eq_some_iff.mp hs).1
    rw [size_modify] at hlt
    exact absurd hn (by simp [hlt])

theorem sheds_erase : Sheds a (a.erase h) where
  sound ha := sound_erase ha h
  size := size_erase h
  slot {i s} hs := by
    unfold erase
    split
    · rename_i hc
      simp only [Array.getElem?_modify, hs, Option.map_some]
      split
      · subst_vars
        obtain ⟨e, he⟩ := contains_iff.mp hc
        obtain ⟨s', hs', -, hentry⟩ := get?_eq_some_iff.mp he
        cases hs.symm.trans hs'
        exact ⟨_, rfl, .inr ⟨rfl, by rw [hentry]; rfl, rfl⟩⟩
      · exact ⟨_, rfl, .inl ⟨rfl, rfl⟩⟩
    · exact ⟨s, hs, .inl ⟨rfl, rfl⟩⟩

theorem gains_insert (e : α) : Gains a (a.insert e).2 where
  sound ha := sound_insert ha e
  slot {i s} hs := by
    unfold insert
    split
    · simp only [Array.getElem?_modify, hs, Option.map_some]
      split
      · exact ⟨_, rfl, rfl, fun _ => rfl⟩
      · exact ⟨_, rfl, rfl, id⟩
    · have hlt := (Array.getElem?_eq_some_iff.mp hs).1
      exact ⟨s, by simp [Array.getElem?_push, hs, Nat.ne_of_lt hlt], rfl, id⟩
  new {i s} hn hs := by
    unfold insert at hs
    split at hs
    · simp [Array.getElem?_modify, hn] at hs
    · simp only [Array.getElem?_push, hn] at hs
      split at hs
      · cases hs
        rfl
      · cases hs

end Steps

-- A way of changing an arena that covers changes of the entries.
structure Permissive (R : Arena k α → Arena k α → Prop) : Prop where
  refl : ∀ a, R a a
  trans : ∀ {a b c}, R a b → R b c → R a c
  modify : ∀ a h f, R a (a.modify h f)

theorem permissive_sheds : Permissive (Sheds : Arena k α → Arena k α → Prop) :=
  ⟨.refl, .trans, fun _ _ _ => sheds_modify⟩

theorem permissive_gains : Permissive (Gains : Arena k α → Arena k α → Prop) :=
  ⟨.refl, .trans, fun _ _ _ => gains_modify⟩

theorem Gains.contains (hg : Gains a b) (hc : a.contains h = true) : b.contains h = true := by
  obtain ⟨e, he⟩ := contains_iff.mp hc
  obtain ⟨s, hs, hgen, hentry⟩ := get?_eq_some_iff.mp he
  obtain ⟨s', hs', hgen', hentry'⟩ := hg.slot hs
  simp [Arena.contains, get?, hs', hgen', hgen, hentry' (by simp [hentry])]

-- Nothing comes to life by freeing.
theorem Sheds.contains (hs : Sheds a b) (hc : a.contains h = false) : b.contains h = false := by
  by_contra hb
  obtain ⟨e, he⟩ := contains_iff.mp (by simpa using hb)
  obtain ⟨s', hs', hgen', hentry'⟩ := get?_eq_some_iff.mp he
  have hlt : h.index < a.slots.size := hs.size ▸ (Array.getElem?_eq_some_iff.mp hs').1
  obtain ⟨s'', hs'', hcase⟩ := hs.slot (Array.getElem?_eq_getElem hlt)
  cases hs'.symm.trans hs''
  rcases hcase with ⟨hgen, hsome⟩ | ⟨-, -, hnone⟩
  · rw [hentry'] at hsome
    have hyes : a.contains h = true := by
      simp only [Arena.contains, get?, Array.getElem?_eq_getElem hlt, ← hgen, hgen', if_true, ← hsome,
        Option.isSome_some]
    cases hc.symm.trans hyes
  · cases hentry'.symm.trans hnone

-- Whether a slot that was in use has been freed in between.
def vacates (a b : Arena k α) (i : Nat) : Bool :=
  a.slots[i]?.any fun s => s.entry.isSome && !b.contains ⟨i, s.generation⟩

theorem contains_of_slot (hs : a.slots[i]? = some t) :
    a.contains ⟨i, t.generation⟩ = t.entry.isSome := by
  simp [contains, get?, hs]

theorem vacates_iff : a.vacates b i = true ↔
    ∃ g, a.contains ⟨i, g⟩ = true ∧ b.contains ⟨i, g⟩ = false := by
  unfold vacates
  rcases hs : a.slots[i]? with _ | s
  · simp [contains, get?, hs]
  · simp only [Option.any_some, Bool.and_eq_true, Bool.not_eq_true']
    constructor
    · rintro ⟨hentry, hgone⟩
      exact ⟨s.generation, by rw [contains_of_slot hs, hentry], hgone⟩
    · rintro ⟨g, hin, hgone⟩
      obtain ⟨e, he⟩ := contains_iff.mp hin
      obtain ⟨s', hs', rfl, hentry⟩ := get?_eq_some_iff.mp he
      cases hs.symm.trans hs'
      exact ⟨by rw [hentry]; rfl, hgone⟩

-- Freeing a slot is what its generation counts.
theorem Turns.slot (ht : Turns a b) (hs : a.slots[i]? = some t) :
    ∃ s' : Slot α, b.slots[i]? = some s' ∧
      s'.generation = t.generation + UInt32.ofNat (a.vacates b i).toNat := by
  obtain ⟨m, hshed, hgain⟩ := ht
  obtain ⟨s₁, hs₁, hcase⟩ := hshed.slot hs
  obtain ⟨s₂, hs₂, hg, he⟩ := hgain.slot hs₁
  refine ⟨s₂, hs₂, ?_⟩
  rcases hcase with ⟨hg₁, he₁⟩ | ⟨hg₁, he₁, -⟩
  · have hgen : s₂.generation = t.generation := hg.trans hg₁
    have hno : a.vacates b i = false := by
      simp only [vacates, hs, Option.any_some]
      cases hentry : t.entry.isSome with
      | false => rfl
      | true => simp [← hgen, contains_of_slot hs₂, he (he₁.trans hentry)]
    simp [hno, hgen]
  · have hgen : s₂.generation = t.generation + 1 := by rw [hg, hg₁]
    have hyes : a.vacates b i = true := by
      simp [vacates, hs, he₁, contains, get?, hs₂, hgen]
    rw [hyes, hgen]
    rfl

-- How often a slot is freed in a run. A step frees it once or not at all.
section Runs

variable {σ β : Type} (step : β → σ → σ) (part : σ → Arena k α) (i : Nat)

def frees : σ → List β → Nat
  | _, [] => 0
  | s, b :: rest => ((part s).vacates (part (step b s)) i).toNat + frees (step b s) rest

def run (s : σ) (bs : List β) : σ :=
  bs.foldl (fun s b => step b s) s

variable {step part} {s : σ} {bs cs : List β}

theorem run_append : run step s (bs ++ cs) = run step (run step s bs) cs :=
  List.foldl_append

theorem frees_append :
    frees step part i s (bs ++ cs) =
      frees step part i s bs + frees step part i (run step s bs) cs := by
  induction bs generalizing s with
  | nil => simp [frees, run]
  | cons b bs ih => simp only [List.cons_append, frees, ih, Nat.add_assoc]; rfl

-- So it takes as many steps at least.
theorem frees_le_length : frees step part i s bs ≤ bs.length := by
  induction bs generalizing s with
  | nil => exact Nat.le_refl 0
  | cons b bs ih =>
    simp only [frees, List.length_cons]
    have hone := Bool.toNat_le ((part s).vacates (part (step b s)) i)
    have hrest := ih (s := step b s)
    omega

variable {i} (hturn : ∀ b s, Turns (part s) (part (step b s)))

theorem contains_of_not_vacates (hc : a.contains h = true) (hv : a.vacates b h.index = false) :
    b.contains h = true := by
  by_contra hno
  have : a.vacates b h.index = true := vacates_iff.2 ⟨h.generation, hc, by simpa using hno⟩
  simp [this] at hv

-- A handle goes only when its slot is freed.
theorem frees_pos (hc : (part s).contains h = true)
    (hgone : (part (run step s bs)).contains h = false) : 0 < frees step part h.index s bs := by
  induction bs generalizing s with
  | nil => simp [run, hc] at hgone
  | cons b bs ih =>
    cases hv : (part s).vacates (part (step b s)) h.index with
    | true =>
      simp only [frees, hv, Bool.toNat_true]
      omega
    | false =>
      have hrest := ih (contains_of_not_vacates hc hv) hgone
      simp only [frees]
      omega

include hturn

theorem slot_run (hs : (part s).slots[i]? = some t) :
    ∃ t' : Slot α, (part (run step s bs)).slots[i]? = some t' ∧
      t'.generation = t.generation + UInt32.ofNat (frees step part i s bs) := by
  induction bs generalizing s t with
  | nil => exact ⟨t, hs, by simp [frees]⟩
  | cons b bs ih =>
    obtain ⟨t₁, hs₁, hg₁⟩ := (hturn b s).slot hs
    obtain ⟨t₂, hs₂, hg₂⟩ := ih hs₁
    exact ⟨t₂, hs₂, by rw [hg₂, hg₁, frees, UInt32.ofNat_add, UInt32.add_assoc]⟩

-- Once a handle has gone it has passed, as long as the generations of its slot have not all been
-- used.
theorem passed_run {ds : List β} (hc : (part s).contains h = true)
    (hgone : (part (run step s bs)).contains h = false)
    (hfew : frees step part h.index s (bs ++ ds) < 2 ^ 32) :
    (part (run step s (bs ++ ds))).Passed h := by
  obtain ⟨e, he⟩ := contains_iff.mp hc
  obtain ⟨t, hs, hg, -⟩ := get?_eq_some_iff.mp he
  obtain ⟨t', hs', hg'⟩ : ∃ t' : Slot α, (part (run step s (bs ++ ds))).slots[h.index]? = some t' ∧
      t'.generation = t.generation + UInt32.ofNat (frees step part h.index s (bs ++ ds)) :=
    slot_run hturn hs
  have hpos := frees_pos hc hgone
  have hcount : frees step part h.index s (bs ++ ds) =
      frees step part h.index s bs + frees step part h.index (run step s bs) ds :=
    frees_append h.index
  refine ⟨t', hs', fun heq => ?_⟩
  rw [heq, hg, UInt32.left_eq_add] at hg'
  have hmod : frees step part h.index s (bs ++ ds) % 2 ^ 32 = 0 := by
    simpa using congrArg UInt32.toNat hg'
  rw [Nat.mod_eq_of_lt hfew] at hmod
  omega

theorem passed_of_prefix {ds : List β} (hbc : bs <+: cs) (hcd : cs <+: ds)
    (hc : (part (run step s bs)).contains h = true)
    (hgone : (part (run step s cs)).contains h = false)
    (hfew : frees step part h.index s ds < 2 ^ 32) : (part (run step s ds)).Passed h := by
  obtain ⟨mid, rfl⟩ := hbc
  obtain ⟨rest, rfl⟩ := hcd
  rw [List.append_assoc, frees_append] at hfew
  rw [run_append] at hgone
  rw [List.append_assoc, run_append]
  exact passed_run hturn hc hgone (by omega)

theorem sound_run (hs : (part s).Sound) : (part (run step s bs)).Sound := by
  induction bs generalizing s with
  | nil => exact hs
  | cons b bs ih => exact ih ((hturn b s).sound hs)

-- No handle is given out that has been in use before.
theorem insert_new (hs : (part s).Sound) {e : α} (hbc : bs <+: cs)
    (hh : ((part (run step s cs)).insert e).1 = h)
    (hfew : frees step part h.index s cs < 2 ^ 32) :
    (part (run step s bs)).contains h = false := by
  have hsound : (part (run step s cs)).Sound := sound_run hturn hs
  have hgone : (part (run step s cs)).contains h = false := by
    simp [contains, ← hh, get?_insert_fresh hsound]
  cases hc : (part (run step s bs)).contains h with
  | false => rfl
  | true =>
    have hp := passed_of_prefix hturn hbc (List.prefix_refl cs) hc hgone hfew
    cases (hp.insert e).get?_eq_none.symm.trans (hh ▸ get?_insert_self hsound e)

end Runs

end Arena

-- A computation that leads from every state to a related one, also where it fails.
section Along

variable {ε σ α β : Type} {R S : σ → σ → Prop} {x : ExceptT ε (StateM σ) α}
  {k : α → ExceptT ε (StateM σ) β}

def Along (R : σ → σ → Prop) (x : ExceptT ε (StateM σ) α) : Prop :=
  ∀ s, Ensures x s (fun _ s' => R s s') fun _ s' => R s s'

namespace Along

theorem after (hx : Along R x) (s : σ) : R s (x.run.run s).2 := by
  have h := hx s
  unfold Ensures at h
  split at h <;> simp_all

theorem mono (hx : Along R x) (hRS : ∀ {s s'}, R s s' → S s s') : Along S x :=
  fun s => (hx s).mono (fun _ _ => hRS) fun _ _ => hRS

theorem map {f : α → β} (hx : Along R x) : Along R (f <$> x) :=
  fun s => Ensures.map_iff.mpr (hx s)

-- What comes first is of one kind, what comes then of another.
theorem comp (hS : ∀ s, S s s) (hx : Along R x) (hk : ∀ a, Along S (k a)) :
    Along (Relation.Comp R S) (x >>= k) := by
  intro s
  rw [Ensures.bind_iff]
  refine (hx s).mono (fun a s' h => ?_) fun _ s' h => ⟨s', h, hS s'⟩
  exact (hk a s').mono (fun _ t ht => ⟨s', h, ht⟩) fun _ t ht => ⟨s', h, ht⟩

section

variable (hR : ∀ s, R s s)

include hR

theorem pure (a : α) : Along R (Pure.pure a : ExceptT ε (StateM σ) α) :=
  fun s => Ensures.pure_iff.mpr (hR s)

theorem throw (e : ε) : Along R (throw e : ExceptT ε (StateM σ) α) :=
  fun s => Ensures.throw_iff.mpr (hR s)

theorem get : Along R (MonadState.get : ExceptT ε (StateM σ) σ) :=
  fun s => Ensures.get_iff.mpr (hR s)

end

section

variable (hT : ∀ {s s' s''}, R s s' → R s' s'' → R s s'')

include hT

theorem bind (hx : Along R x) (hk : ∀ a, Along R (k a)) : Along R (x >>= k) := by
  intro s
  rw [Ensures.bind_iff]
  exact (hx s).mono (fun a s' h => (hk a s').mono (fun _ _ => hT h) fun _ _ => hT h) fun _ _ h => h

theorem forM {f : β → ExceptT ε (StateM σ) Unit} (hR : ∀ s, R s s) (hf : ∀ b, Along R (f b))
    (l : List β) : Along R (l.forM f) :=
  fun s => (Ensures.forM (fun _ s' => R s s')
    (fun b _ s' h => (hf b s').mono (fun _ _ => hT h) fun _ _ => hT h) l s (hR s)).mono
    (fun _ _ h => h) fun _ _ h => h

end

end Along

end Along

end FinLang
