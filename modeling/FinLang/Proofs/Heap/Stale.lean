import FinLang.Proofs.Heap.Turnover

namespace FinLang

theorem Arena.Passed.not_live {h : Heap} {x : VarId} (hp : h.arena.Passed x) : ¬h.Live x := by
  rintro ⟨v, hv⟩
  cases hp.get?_eq_none.symm.trans hv

namespace Heap

-- What can be asked about a variable and fails where there is none.
inductive Query where
  | record
  | resolve
  | payload
  | varType
  | isNull
  | isLeftValue
  | isWriteProtected
  | owner
  | owningScope
  | numeric
  | string
  | image
  | arrayItems
  | arrayLength
  | toValue
  | toBool
  | writable

namespace Query

def Answer : Query → Type
  | .record => Variable
  | .resolve => VarId
  | .payload => Payload
  | .varType => VarType
  | .isNull | .isLeftValue | .isWriteProtected | .toBool => Bool
  | .owner => Owner
  | .owningScope => Option ScopeId
  | .numeric => Float
  | .string => String
  | .image => Image
  | .arrayItems => Array VarId
  | .arrayLength => Nat
  | .toValue => Value
  | .writable => VarId × Variable

def ask (h : Heap) (id : VarId) : (q : Query) → Except Failure q.Answer
  | .record => h.lookup id
  | .resolve => h.resolve id
  | .payload => h.payload id
  | .varType => h.varType id
  | .isNull => h.isNull id
  | .isLeftValue => h.isLeftValue id
  | .isWriteProtected => h.isWriteProtected id
  | .owner => h.owner id
  | .owningScope => h.owningScope id
  | .numeric => h.numeric id
  | .string => h.string id
  | .image => h.image id
  | .arrayItems => h.arrayItems id
  | .arrayLength => h.arrayLength id
  | .toValue => h.toValue id
  | .toBool => h.toBool id
  | .writable => h.writable id

end Query

variable {α β : Type} {h h' : Heap} {x t : VarId} {e : Failure}

theorem ask_stale (hx : ¬h.Live x) (q : Query) : q.ask h x = .error (.of (.staleVariable x)) := by
  have hlookup := lookup_stale hx
  have hresolve := resolve_stale hx
  have hpayload := payload_stale hx
  cases q <;> (simp [Query.ask, hlookup, hresolve, hpayload, Heap.varType, Heap.isNull, Heap.isLeftValue,
      Heap.isWriteProtected, Heap.owner, Heap.owningScope, walkBudget, owningScopeWithin, Heap.numeric,
      Heap.string, Heap.image, Heap.arrayItems, Heap.arrayLength, Heap.toValue, toValueWithin,
      Heap.toBool, Heap.writable, bind, Except.bind]; rfl)

-- An operation fails for a variable that is not there, and has changed nothing.
def Missed (h : Heap) (e : Failure) (h' : Heap) : Prop :=
  (∃ y, e = .of (.staleVariable y)) ∧ h' = h

abbrev Misses (op : HeapM α) (h : Heap) : Prop :=
  Ensures op h (fun _ _ => False) (Missed h)

theorem misses_read {f : Heap → Except Failure α} {k : α → HeapM β} {y : VarId}
    (hf : f h = .error (.of (.staleVariable y))) : Misses (read f >>= k) h := by
  rw [Misses, Ensures.bind_iff, read_error hf]
  exact ⟨⟨y, rfl⟩, rfl⟩

theorem misses_read_bind {f : Heap → Except Failure α} {k : α → HeapM β} {a : α}
    (hf : f h = .ok a) (hk : Misses (k a) h) : Misses (read f >>= k) h := by
  rwa [Misses, Ensures.bind_iff, read_ok hf]

theorem misses_update {f : Variable → Variable} (hx : ¬h.Live x) : Misses (update x f) h :=
  (update_stale hx).mpr ⟨⟨x, rfl⟩, rfl⟩

-- A handle leads to a live variable, or to none.
theorem resolve_cases (h : Heap) (y : VarId) :
    (∃ t, h.resolve y = .ok t ∧ h.Live t ∧ h.Live y) ∨
      ∃ z, h.resolve y = .error (.of (.staleVariable z)) := by
  by_cases hy : h.Live y
  swap
  · exact .inr ⟨y, resolve_stale hy⟩
  obtain ⟨v, hv⟩ := hy
  by_cases hlink : ∃ t, v.payload = .link t
  swap
  · exact .inl ⟨y, resolve_eq_self hv fun t ht => hlink ⟨t, ht⟩, ⟨v, hv⟩, ⟨v, hv⟩⟩
  obtain ⟨t, hlink⟩ := hlink
  cases hc : h.contains t with
  | true =>
    refine .inl ⟨t, ?_, contains_iff.mp hc, ⟨v, hv⟩⟩
    simp [resolve, lookup_eq hv, bind, Except.bind, hlink, hc, pure, Except.pure]
  | false =>
    refine .inr ⟨t, ?_⟩
    simp [resolve, lookup_eq hv, bind, Except.bind, hlink, hc, throw, throwThe, MonadExceptOf.throw]

theorem copy_misses {target source : VarId} (hx : ¬h.Live target ∨ ¬h.Live source) :
    Misses (copy target source) h := by
  rcases resolve_cases h target with ⟨t, ht, -, hlive⟩ | ⟨z, hz⟩
  swap
  · exact misses_read hz
  refine misses_read_bind ht ?_
  rcases resolve_cases h source with ⟨s, -, -, hlive'⟩ | ⟨z, hz⟩
  · exact absurd hx (by simp [hlive, hlive'])
  · exact misses_read hz

theorem moveOrCopy_misses {target source : VarId} (hx : ¬h.Live target ∨ ¬h.Live source) :
    Misses (moveOrCopy target source) h := by
  rcases resolve_cases h source with ⟨s, hs, ⟨v, hv⟩, -⟩ | ⟨z, hz⟩
  swap
  · exact misses_read hz
  refine misses_read_bind hs (misses_read_bind (lookup_eq hv) ?_)
  split
  · exact copy_misses hx
  · rcases resolve_cases h target with ⟨t, ht, -, hlive⟩ | ⟨z, hz⟩
    · refine misses_read_bind ht ?_
      have hsource : ¬h.Live source := hx.resolve_left (not_not_intro hlive)
      cases (resolve_stale hsource).symm.trans hs
    · exact misses_read hz

theorem setLink_misses {link target : VarId} (hx : ¬h.Live link ∨ ¬h.Live target) :
    Misses (setLink link target) h := by
  rcases resolve_cases h target with ⟨t, ht, htl, hlive⟩ | ⟨z, hz⟩
  swap
  · exact misses_read hz
  have hlink : ¬h.Live link := hx.resolve_right (not_not_intro hlive)
  refine misses_read_bind ht ?_
  have hne : t ≠ link := by
    rintro rfl
    exact hlink htl
  rw [if_neg hne, Misses, unsetLink, bind_assoc]
  exact misses_read (lookup_stale hlink)

-- A new variable has come about, and nothing has become of it.
theorem allocLink_misses {target : VarId} (hx : h.arena.Passed target) :
    (allocLink target).run.run h =
      (.error (.of (.staleVariable target)), h.added (.temporary .null)) := by
  have hstale : ¬(h.added (.temporary .null)).Live target := (hx.insert _).not_live
  have hset : (setLink (h.fresh (.temporary .null)) target).run.run (h.added (.temporary .null)) =
      (.error (.of (.staleVariable target)), h.added (.temporary .null)) :=
    run_bind_of_error (by simp [read, ExceptT.mk, ExceptT.run, StateT.run, resolve_stale hstale])
  have halloc : (liftM (alloc .null) : HeapM VarId).run.run h =
      (.ok (h.fresh (.temporary .null)), h.added (.temporary .null)) := rfl
  rw [allocLink, allocNull, run_bind_of_ok halloc]
  exact run_bind_of_error hset

-- The array is asked first. What it takes in must be there.
theorem pushElement_misses {array child : VarId} (hx : ¬h.Live child) :
    Ensures (pushElement array child) h (fun _ _ => False)
      (fun e h' => e = .of (.staleVariable child) ∨ h' = h) := by
  rw [pushElement, Ensures.bind_iff]
  rcases hr : h.resolve array with e | t
  · exact (read_error (f := fun h => h.resolve array) hr).mpr (.inr rfl)
  refine (read_ok (f := fun h => h.resolve array) hr).mpr ?_
  rw [Ensures.bind_iff]
  rcases hw : h.writable t with e | ⟨reached, v⟩
  · exact (read_error (f := fun h => h.writable t) hw).mpr (.inr rfl)
  refine (read_ok (f := fun h => h.writable t) hw).mpr ?_
  have hput : Ensures (do
      update reached fun v => { v with payload := appendItems #[child] v.payload }
      setOwner child (.array t)
      setLeftValue child v.leftValue) h (fun _ _ => False)
      (fun e h' => e = .of (.staleVariable child) ∨ h' = h) := by
    rw [Ensures.bind_iff]
    by_cases hl : h.Live reached
    · obtain ⟨w, hw⟩ := hl
      rw [update_iff hw, Ensures.bind_iff]
      exact (update_stale (mt (maps_change _).live.mp hx)).mpr (.inl rfl)
    · exact (update_stale hl).mpr (.inr rfl)
  dsimp only
  split
  · exact hput
  · exact hput
  · exact fail_iff.mpr (.inr rfl)

-- Whom an operation asks for. The elements of a new array and an owner are put down as they are,
-- and a handle that has gone may be released.
def Op.asks : Op → List VarId
  | .alloc _ | .allocValue _ | .release _ => []
  | .allocLink target => [target]
  | .setOwner id _ | .setWriteProtected id _ | .setLeftValue id _ | .setType id _ | .setNumeric id _
  | .setString id _ | .setImage id _ | .element id _ | .unsetLink id | .free id | .duplicate id => [id]
  | .pushElement array child => [array, child]
  | .detachElement array _ => [array]
  | .copy target source | .moveOrCopy target source => [target, source]

def Act.asks : Act → List VarId
  | .op o => o.asks
  | .setLink link target => [link, target]

-- What becomes of an operation that asks for a variable that has gone. A link has been made a null
-- by then, and an array may have refused first.
def Act.Denied (h : Heap) (x : VarId) (a : Act) : Prop :=
  Ensures a.run h (fun _ _ => False) fun e h' =>
    Missed h e h' ∨
    a = .op (.allocLink x) ∧ e = .of (.staleVariable x) ∧ h' = h.added (.temporary .null) ∨
    ∃ array, a = .op (.pushElement array x) ∧ (e = .of (.staleVariable x) ∨ h' = h)

theorem free_misses (hx : ¬h.Live x) : Misses (free x) h := by
  rw [Misses, free, Ensures.bind_iff, Ensures.get_iff, walkBudget, freeWithin, unsetLink, bind_assoc]
  exact misses_read (lookup_stale hx)

theorem setLeftValue_misses {flag : Bool} (hx : ¬h.Live x) : Misses (setLeftValue x flag) h := by
  rw [Misses, setLeftValue, Ensures.bind_iff, Ensures.get_iff, walkBudget, setLeftValueWithin,
    Ensures.bind_iff]
  exact (misses_update hx).mono (fun _ _ => False.elim) fun _ _ hm => hm

-- Operations that ask for the variable before they do anything.
theorem Op.misses_of_single {o : Op} (hgone : ¬h.Live x) (hx : o.asks = [x])
    (hlink : o ≠ .allocLink x) : Misses o.run h := by
  have hwritable : h.writable x = .error (.of (.staleVariable x)) := ask_stale hgone .writable
  cases o with
  | alloc | allocValue | release | pushElement | copy | moveOrCopy => cases hx
  | allocLink =>
    cases hx
    exact absurd rfl hlink
  | setOwner | setWriteProtected =>
    cases hx
    exact misses_update hgone
  | setLeftValue =>
    cases hx
    exact setLeftValue_misses hgone
  | setType | setNumeric | setString | setImage =>
    cases hx
    exact misses_read hwritable
  | element | detachElement =>
    cases hx
    exact Ensures.map_iff.mpr (misses_read (resolve_stale hgone))
  | unsetLink =>
    cases hx
    exact misses_read (lookup_stale hgone)
  | free =>
    cases hx
    exact free_misses hgone
  | duplicate =>
    cases hx
    exact Ensures.map_iff.mpr (misses_read (toValue_stale hgone))

theorem Act.denied {a : Act} (hp : h.arena.Passed x) (hx : x ∈ a.asks) : a.Denied h x := by
  have hgone := hp.not_live
  have hmissed (hm : Misses a.run h) : a.Denied h x := hm.mono (fun _ _ hf => hf) fun _ _ => .inl
  have heither {y z : VarId} (hmem : x ∈ [y, z]) : ¬h.Live y ∨ ¬h.Live z := by
    simp only [List.mem_cons, List.not_mem_nil, or_false] at hmem
    rcases hmem with rfl | rfl
    · exact .inl hgone
    · exact .inr hgone
  cases a with
  | setLink link target => exact hmissed (setLink_misses (heither hx))
  | op o =>
    have hop (hm : Misses o.run h) : (Act.op o).Denied h x := hmissed hm
    cases o with
    | copy target source => exact hmissed (copy_misses (heither hx))
    | moveOrCopy target source => exact hmissed (moveOrCopy_misses (heither hx))
    | allocLink target =>
      cases List.mem_singleton.mp hx
      refine Ensures.map_iff.mpr ?_
      unfold Ensures
      rw [allocLink_misses hp]
      exact .inr (.inl ⟨rfl, rfl, rfl⟩)
    | pushElement array child =>
      simp only [Act.asks, Op.asks, List.mem_cons, List.not_mem_nil, or_false] at hx
      rcases hx with rfl | rfl
      · exact hmissed (misses_read (resolve_stale hgone))
      · exact (pushElement_misses hgone).mono (fun _ _ hf => hf) fun _ _ he => .inr (.inr ⟨array, rfl, he⟩)
    | alloc | allocValue | release => cases hx
    | setOwner | setWriteProtected | setLeftValue | setType | setNumeric | setString | setImage
    | element | unsetLink | free | duplicate | detachElement =>
      cases List.mem_singleton.mp hx
      exact hop (Op.misses_of_single hgone rfl nofun)

end Heap

end FinLang
