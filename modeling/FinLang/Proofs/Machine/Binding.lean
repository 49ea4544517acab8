import Mathlib.Data.List.Forall2
import FinLang.Proofs.Machine.Call
import FinLang.Proofs.Machine.Oblivious

namespace FinLang

open Heap (Keeps Preserved)

namespace Function

-- The arguments from a position on, with the names that they are bound to.
def supply (params : List String) (i : Nat) (nodes : List Node) : List (Node × String) :=
  (nodes.zipIdx i).map fun p => (p.1, paramName params p.2)

-- The names that a call with so many arguments binds.
def boundNames (params : List String) (count : Nat) : List String :=
  params ++ (List.range (count - params.length)).map extArgName

theorem supply_cons (params : List String) (i : Nat) (node : Node) (rest : List Node) :
    supply params i (node :: rest) = (node, paramName params i) :: supply params (i + 1) rest :=
  rfl

theorem map_paramName_range (params : List String) {k : Nat} (hk : k ≤ params.length) :
    (List.range k).map (paramName params) = params.take k := by
  refine List.ext_getElem (by simp [hk]) fun i hi hi' => ?_
  have hlt : i < params.length := by
    simp only [List.length_take] at hi'
    omega
  simp [paramName, hlt]

theorem names_supply (params : List String) (nodes : List Node) :
    (supply params 0 nodes).map Prod.snd ++ params.drop nodes.length =
      boundNames params nodes.length := by
  have hnames : (supply params 0 nodes).map Prod.snd =
      (List.range nodes.length).map (paramName params) := by
    rw [supply, List.map_map, List.range_eq_range', ← List.zipIdx_map_snd 0 nodes, List.map_map]
    rfl
  rw [hnames, boundNames]
  generalize nodes.length = k
  rcases Nat.le_total k params.length with hk | hk
  · rw [map_paramName_range params hk, List.take_append_drop, Nat.sub_eq_zero_of_le hk]
    simp
  · obtain ⟨d, rfl⟩ := Nat.exists_eq_add_of_le hk
    rw [List.range_add, List.map_append, map_paramName_range params (Nat.le_refl _),
      List.take_length, List.drop_eq_nil_of_le hk, List.append_nil, Nat.add_sub_cancel_left,
      List.map_map]
    simp [paramName]

end Function

namespace Run

-- A left-value of a scope that holds a value and may be assigned to. Nothing else leads to any part
-- of it, neither as an element nor by a link, nor does it lead anywhere else.
structure Own (r : Run) (n : ScopeId) (x : VarId) (value : Value) : Prop where
  record : ∃ v, r.heap.var? x = some v ∧ v.owner = .scope n ∧ v.leftValue = true ∧
    v.writeProtected = false
  holds : r.heap.Holds x value
  apart : r.heap.Closed (r.heap.Below x)

-- A scope is the given one but for its bindings: these are the given names in turn, each with a
-- variable of its own for the value in its place.
def Fills (r : Run) (n : ScopeId) (sc : Scope) (names : List String) (values : List Value) : Prop :=
  ∃ vars : List (String × VarId), r.scope? n = some { sc with vars := vars } ∧
    vars.map Prod.fst = names ∧ List.Forall₂ (fun b value => r.Own n b.2 value) vars values ∧
    (vars.map Prod.snd).Nodup

end Run

-- An argument is evaluated where the call stands, and comes to the same if the scope of the call
-- binds nothing. Its value of that moment goes to a variable that had no owner then.
def Supplies (self : Interpreter) (caller n : ScopeId) (node : Node) (name : String) (value : Value)
    (r r' : Run) : Prop :=
  ∃ x y r₁ r₂, (self.eval node caller).run.run r = (.ok (some x), r₁) ∧
    (self.eval node caller).run.run (r.veil n) = (.ok (some x), r₁.veil n) ∧
    r₁.heap.toValue x = .ok value ∧
    (Exec.own x).run.run r₁ = (.ok y, r₂) ∧ (∀ o, r₁.heap.OwnedBy y o → o = .detached) ∧
    (Interpreter.declareIn n name y).run.run r₂ = (.ok (), r')

-- One argument after the other.
inductive Supplied (self : Interpreter) (caller n : ScopeId) :
    List (Node × String) → List Value → Run → Run → Prop
  | nil {r : Run} : Supplied self caller n [] [] r r
  | cons {node : Node} {name : String} {rest : List (Node × String)} {value : Value}
      {values : List Value} {r r' r'' : Run} :
      Supplies self caller n node name value r r' → Supplied self caller n rest values r' r'' →
      Supplied self caller n ((node, name) :: rest) (value :: values) r r''

-- An argument does not come to a value: it fails, an `exit` interrupts it, or the fuel runs out.
inductive Interrupted (self : Interpreter) (caller n : ScopeId) : List (Node × String) → Run → Prop
  | here {node : Node} {name : String} {rest : List (Node × String)} {r : Run} :
      (∀ x r', (self.eval node caller).run.run r ≠ (.ok (some x), r')) →
      Interrupted self caller n ((node, name) :: rest) r
  | later {node : Node} {name : String} {rest : List (Node × String)} {value : Value} {r r' : Run} :
      Supplies self caller n node name value r r' → Interrupted self caller n rest r' →
      Interrupted self caller n ((node, name) :: rest) r

-- The bindings of a call while they are made, seen from where the call stands: they are out of reach
-- from there and among what is left alone.
structure Filling (D : Discipline) (A : ScopeId → Prop) (J : VarId → Prop) (caller n : ScopeId)
    (sc : Scope) (xs : List VarId) (names : List String) (values : List Value) (r : Run) : Prop where
  state : State D A J xs caller r
  outside : ¬A n
  aside : r.store.Aside n
  flow : r.flow = .start
  fills : r.Fills n sc names values
  kept : ∀ {sc' b z}, r.scope? n = some sc' → b ∈ sc'.vars → r.heap.Below b.2 z → J z
  nodup : names.Nodup
  named : "" ∉ names

variable {D : Discipline} {A : ScopeId → Prop} {J K : VarId → Prop} {P : ScopeId → Prop}
  {caller n : ScopeId} {sc : Scope} {xs ys : List VarId} {names : List String} {values : List Value}
  {r r' : Run} {x y : VarId} {value : Value} {name : String} {self : Interpreter}
  {E : Halt → Run → Prop}

theorem Heap.Keeps.below {h h' : Heap} (hk : Keeps K h h') (ht : ∀ z, h.Below x z → K z) :
    h'.Below x y ↔ h.Below x y := by
  constructor
  · intro hb
    induction hb with
    | refl => exact .refl
    | step _ hl ih =>
      obtain ⟨v, hv, hc⟩ := hl
      exact ih.step ⟨v, (hk _ (ht _ ih)).symm.trans hv, hc⟩
  · intro hb
    induction hb with
    | refl => exact .refl
    | step hb hl ih =>
      obtain ⟨v, hv, hc⟩ := hl
      exact ih.step ⟨v, (hk _ (ht _ hb)).trans hv, hc⟩

-- What is left alone stays as it is.
theorem Run.Own.keeps (ho : r.Own n x value) (hs : r.heap.Sound []) (hs' : r'.heap.Sound [])
    (hk : Keeps K r.heap r'.heap) (ht : ∀ z, r.heap.Below x z → K z) : r'.Own n x value := by
  obtain ⟨v, hv, hrest⟩ := ho.record
  refine ⟨⟨v, (hk x (ht x .refl)).trans hv, hrest⟩, ho.holds.preserve (hk.preserved ht), ?_⟩
  have hsame : r'.heap.Below x = r.heap.Below x := funext fun z => propext (hk.below ht)
  rw [hsame]
  exact ho.apart.keeps hs hs' (hk.mono ht)

theorem Run.Own.all_keeps {vars : List (String × VarId)}
    (hall : List.Forall₂ (fun b value => r.Own n b.2 value) vars values) (hs : r.heap.Sound [])
    (hs' : r'.heap.Sound []) (hk : Keeps K r.heap r'.heap)
    (ht : ∀ b ∈ vars, ∀ z, r.heap.Below b.2 z → K z) :
    List.Forall₂ (fun b value => r'.Own n b.2 value) vars values :=
  ((List.forall₂_and_left _ _).mpr ⟨ht, hall⟩).imp fun _ _ ho => ho.2.keeps hs hs' hk ho.1

namespace Filling

theorem later (hf : Filling D A J caller n sc xs names values r) (hframe : Frame J noScope r r')
    (hst : State D A J ys caller r') (ha : r'.store.Aside n) (hflow : r'.flow = .start) :
    Filling D A J caller n sc ys names values r' := by
  obtain ⟨vars, hsc, hnames, hall, hnd⟩ := hf.fills
  have hsc' : r'.scope? n = some { sc with vars := vars } := (hframe.scopes n not_false).trans hsc
  have hkept : ∀ b ∈ vars, ∀ z, r.heap.Below b.2 z → J z := fun b hb z => hf.kept hsc hb
  have hall' := Run.Own.all_keeps hall hf.state.sound.heap hst.sound.heap hframe.keeps hkept
  refine ⟨hst, hf.outside, ha, hflow, ⟨vars, hsc', hnames, hall', hnd⟩, ?_, hf.nodup, hf.named⟩
  intro sc' b z hsc'' hb hz
  cases hsc'.symm.trans hsc''
  exact hkept b hb z ((hframe.keeps.below (hkept b hb)).mp hz)

end Filling

namespace Exec

-- What is made one's own holds the value that was read behind the handle, and nobody had it before.
theorem own_holds (hst : State D A K (x :: xs) caller r) (hx : r.heap.Held x)
    (hvalue : r.heap.toValue x = .ok value) :
    Ensures (own x) r
      (fun y r' => r'.heap.Holds y value ∧
        (∀ v, r'.heap.var? y = some v → v.writeProtected = false) ∧
        ∀ o, r.heap.OwnedBy y o → o = .detached) E := by
  have hs := hst.sound.heap
  obtain ⟨v, hv, -⟩ := hx
  rw [own, Ensures.bind_iff, readHeap_ok (Heap.lookup_eq hv)]
  split
  · rename_i hown
    simp only [Bool.and_eq_true, decide_eq_true_eq, Bool.not_eq_true', bne_iff_ne, ne_eq] at hown
    obtain ⟨⟨howner, hfree⟩, hlink⟩ := hown
    have hno : ∀ t, v.payload ≠ .link t := fun t ht => hlink (by rw [ht]; rfl)
    have hstands : r.heap.Stands x x v := .self hv hno
    refine ⟨⟨v, hv, (hs.toValue_iff hstands).mp hvalue⟩, fun w hw => ?_, fun o ho => ?_⟩
    · cases hv.symm.trans hw
      exact hfree
    · exact ((Heap.ownedBy_iff hv).mp ho).symm.trans howner
  · rw [Ensures.bind_iff, onHeap_iff]
    refine ((Heap.duplicate_ensures (K := K) (E := fun _ _ => False) hs
      (fun _ => hst.closed.live) ⟨v, hv⟩).and (Heap.duplicate_holds (E := fun _ _ => False) hs
        hvalue)).mono ?_ fun _ _ he => he.2.elim
    rintro y h ⟨ht, hholds⟩
    obtain ⟨w, hw, howner, -, hfree, -⟩ := ht.record
    have hne : y ≠ x := by
      rintro rfl
      cases ht.fresh.symm.trans hv
    -- The copy is a tree of its own, whatever becomes of the original.
    have hapart : h.Detached x → ¬h.Below y x := fun hd hb =>
      hne (hb.eq_of_root (ht.step.sound.forest.root_of_detached hd).2).symm
    rw [Ensures.bind_iff, release, onHeap_iff]
    refine (Heap.release_ensures ht.step.sound (ht.step.sound.closed_below ht.detached)
      hapart).mono ?_ fun _ _ he => he
    rintro _ h' ⟨hstep, -⟩
    refine ⟨hholds.preserve (hstep.keeps.preserved fun _ hb => hb), fun u hu => ?_, fun o ho => ?_⟩
    · cases (hstep.keeps y .refl).trans hw |>.symm.trans hu
      exact hfree
    · obtain ⟨u, hu, -⟩ := ho
      cases ht.fresh.symm.trans hu

-- A new variable for what has no elements and links to nothing.
theorem alloc_fresh {p : Payload} (hs : r.store.Sound []) (hK : ∀ x, K x → r.heap.Live x)
    (hp : p.elements = #[]) (hl : ∀ t, p ≠ .link t) :
    Ensures (onHeap (Heap.alloc p)) r
      (fun x r' => ∃ h, r' = r.withHeap h ∧ Heap.Temporary K r.heap x h ∧
        h.var? x = some (.temporary p)) E := by
  refine onHeap_iff.mpr ((Heap.alloc_iff hp).mpr ⟨_, rfl, Heap.temporary_added hs.heap hK hp hl, ?_⟩)
  rw [hs.heap.forest.var?_added, if_pos rfl]

end Exec

namespace Filling

theorem mem_names (hf : Filling D A J caller n sc xs names values r) {sc' : Scope}
    (hsc : r.scope? n = some sc') (hname : (sc'.varNamed? name).isSome) : name ∈ names := by
  obtain ⟨vars, hsc', rfl, -⟩ := hf.fills
  cases hsc'.symm.trans hsc
  obtain ⟨x, hx⟩ := Option.isSome_iff_exists.mp hname
  exact List.mem_map_of_mem (mem_of_lookup hx)

theorem not_mem_names (hf : Filling D A J caller n sc xs names values r) {sc' : Scope}
    (hsc : r.scope? n = some sc') (hname : sc'.varNamed? name = none) : name ∉ names := by
  obtain ⟨vars, hsc', rfl, -⟩ := hf.fills
  cases hsc'.symm.trans hsc
  intro hin
  obtain ⟨⟨s, x⟩, hb, rfl⟩ := List.mem_map.mp hin
  simpa using List.lookup_eq_none_iff.mp hname _ hb

-- One more binding: a temporary of its own gets a name that is new.
theorem declare (hf : Filling D A J caller n sc [y] names values r) (hd : r.heap.Detached y)
    (hj : ¬J y) (hfree : ∀ v, r.heap.var? y = some v → v.writeProtected = false)
    (hholds : r.heap.Holds y value) :
    Ensures (Interpreter.declareIn n name y) r
      (fun _ r' => Filling D A (fun z => J z ∨ r.heap.Below y z) caller n sc [] (names ++ [name])
        (values ++ [value]) r')
      (fun e r' => r'.flow = .start ∧ (name = "" ∧ e = .failure (.of .emptyName) ∨
        name ∈ names ∧ e = .failure (.of (.duplicateVariable name)))) := by
  have hs := hf.state.sound.heap
  have hroot := hs.forest.root_of_detached hd
  have hloose : r.store.Sound [y] :=
    ⟨hs.loosen hroot (by simp), hf.state.sound.scopes, hf.state.sound.bound, hf.state.sound.owned⟩
  obtain ⟨vars, hsc, hnames, hall, hnd⟩ := hf.fills
  rw [Interpreter.declareIn, Exec.onStore_iff]
  refine ((Store.declare_ensures hloose hf.state.closed hj hd (hs.rules.aimed hd)).and
    (Store.declare_contents hloose hd hsc)).mono ?_ ?_
  swap
  · rintro e st ⟨-, hrefused⟩
    refine ⟨hf.flow, hrefused.imp (And.imp_right (congrArg _)) (And.imp (hf.mem_names hsc) ?_)⟩
    exact congrArg _
  rintro _ st ⟨hdec, hname, hnew, hsame⟩
  obtain ⟨sc₀, hsc₀, hsc'⟩ := hdec.scope
  cases hsc.symm.trans hsc₀
  have hothers : ∀ {s sc'}, A s → st.scope? s = some sc' → r.scope? s = some sc' := by
    intro s sc' ha hs'
    refine (hdec.others s ?_).symm.trans hs'
    rintro rfl
    exact hf.outside ha
  have hkept : ∀ b ∈ vars, ∀ z, r.heap.Below b.2 z → J z := fun b hb z => hf.kept hsc hb
  have hclosed : r.heap.Closed (r.heap.Below y) := hs.closed_below hd
  have hbelow : st.heap.Below y = r.heap.Below y := funext fun z => propext hsame.below
  refine ⟨⟨hdec.sound, hsame.closed (hf.state.closed.or hclosed), fun z hz => ?_, by simp, ⟨?_, ?_, ?_⟩,
    hf.state.here, ?_⟩, hf.outside, ⟨hdec.sound.scopes, ⟨_, hsc'⟩, ?_⟩, hf.flow,
    ⟨vars ++ [(name, y)], hsc', by simp [hnames], ?_, ?_⟩, ?_, ?_, ?_⟩
  · obtain ⟨hdz, hne⟩ := hdec.detached z hz
    exact (hf.state.detached z hdz).imp .inl fun hin => absurd (List.mem_singleton.mp hin) hne
  · exact fun ha hs' => hf.state.reach.parent ha (hothers ha hs')
  · rintro s sc' name' z ha hs' hin (hz | hz)
    · exact (hdec.keeps.frozen hz).mpr (hf.state.reach.safe ha (hothers ha hs') hin hz)
    · exact absurd (hf.state.sound.bound (hothers ha hs') hin) (hs.not_scope_of_below hd hz s)
  · exact fun ha hs' => hf.state.reach.fit ha (hothers ha hs')
  · refine hf.state.live.imp_left fun ⟨sc', hc⟩ => ⟨sc', (hdec.others caller ?_).trans hc⟩
    rintro rfl
    exact hf.outside hf.state.here
  · intro s sc' hs'
    by_cases hsn : s = n
    · subst hsn
      cases hsc'.symm.trans hs'
      exact fun hp => hf.aside.childless hsc hp
    · exact hf.aside.childless ((hdec.others s hsn).symm.trans hs')
  · refine List.rel_append (Run.Own.all_keeps hall hs hdec.sound.heap hdec.keeps hkept)
      (.cons ⟨?_, hholds.preserve hsame.preserved, ?_⟩ .nil)
    · obtain ⟨v, hv, -⟩ := hd
      exact ⟨_, hdec.record v hv, rfl, rfl, hfree v hv⟩
    · show st.heap.Closed (st.heap.Below y)
      exact hbelow ▸ hsame.closed hclosed
  · rw [List.map_append, List.nodup_append]
    refine ⟨hnd, by simp, fun a ha b hb => ?_⟩
    obtain ⟨c, hc, rfl⟩ := List.mem_map.mp ha
    intro he
    have hcy : c.2 = y := he.trans (List.mem_singleton.mp hb)
    exact hj (hcy ▸ hkept c hc _ .refl)
  · intro sc' b z hs' hb hz
    cases hsc'.symm.trans hs'
    rcases List.mem_append.mp hb with hb | hb
    · exact .inl (hkept b hb z ((hdec.keeps.below (hkept b hb)).mp hz))
    · cases List.mem_singleton.mp hb
      exact .inr (hsame.below.mp hz)
  · refine List.nodup_append.mpr ⟨hf.nodup, by simp, fun a ha b hb => ?_⟩
    cases List.mem_singleton.mp hb
    rintro rfl
    exact hf.not_mem_names hsc hnew ha
  · simpa [hf.named] using Ne.symm hname

end Filling

-- Why names cannot be bound: one of them is empty, or occurs twice.
def Unbindable (names : List String) (c : Cause) : Prop :=
  "" ∈ names ∧ c = .emptyName ∨ ∃ name, 1 < names.count name ∧ c = .duplicateVariable name

theorem Unbindable.of_refused {before after : List String} {e : Halt}
    (h : name = "" ∧ e = .failure (.of .emptyName) ∨
      name ∈ before ∧ e = .failure (.of (.duplicateVariable name))) :
    ∃ c, e = .failure (.of c) ∧ Unbindable (before ++ name :: after) c := by
  rcases h with ⟨rfl, rfl⟩ | ⟨hin, rfl⟩
  · exact ⟨_, rfl, .inl ⟨by simp, rfl⟩⟩
  · refine ⟨_, rfl, .inr ⟨name, ?_, rfl⟩⟩
    have hpos := List.count_pos_iff.mpr hin
    rw [List.count_append, List.count_cons_self]
    omega

namespace Interpreter

open Exec

variable {params : List String}

-- The arguments are bound one after the other until one is interrupted or its name refused.
theorem bindNodes_outcome (hself : self.Sound D) (hobl : self.Oblivious n) (nodes : List Node)
    (hn : ∀ m ∈ nodes, D.evaluable m) {i : Nat} (hf : Filling D A J caller n sc [] names values r) :
    Interrupted self caller n (Function.supply params i nodes) r ∨
      (∃ c r', (bindNodes self params caller n i nodes).run.run r = (.error (.failure (.of c)), r') ∧
        r'.flow = .start ∧ Unbindable (names ++ (Function.supply params i nodes).map Prod.snd) c) ∨
      ∃ J' values' r', (bindNodes self params caller n i nodes).run.run r = (.ok true, r') ∧
        Supplied self caller n (Function.supply params i nodes) values' r r' ∧
        Filling D A J' caller n sc [] (names ++ (Function.supply params i nodes).map Prod.snd)
          (values ++ values') r' := by
  induction nodes generalizing i J names values r with
  | nil =>
    refine .inr (.inr ⟨J, [], r, rfl, .nil, ?_⟩)
    simpa [Function.supply] using hf
  | cons node rest ih =>
    rw [Function.supply_cons, List.map_cons]
    have hne : caller ≠ n := by
      rintro rfl
      exact hf.outside hf.state.here
    rcases heval : (self.eval node caller).run.run r with ⟨_ | _ | x, r₁⟩
    · exact .inl (.here fun x r' he => by cases heval.symm.trans he)
    · exact .inl (.here fun x r' he => by cases heval.symm.trans he)
    obtain ⟨hframe, hst₁, hheld, hflow₁⟩ :=
      (hself.eval (hn node (List.mem_cons_self ..)) hf.state hf.flow).of_ok heval
    obtain ⟨ha₁, hveil⟩ := (hobl.eval node hne).of_ok hf.aside heval
    obtain ⟨value, hvalue⟩ := hst₁.sound.heap.toValue_ok hheld.live
    obtain ⟨y, r₂, hown, hm, hd, hj⟩ := (own_ensures (P := noScope) hst₁ hheld).exists_run
    obtain ⟨hholds, hfree, hnew⟩ := (own_holds (E := fun _ _ => True) hst₁ hheld hvalue).of_ok hown
    have hf₂ : Filling D A J caller n sc [y] names values r₂ :=
      (hf.later hframe hst₁ ha₁ hflow₁).later hm.frame hm.state
        (Exec.Oblivious.own.of_ok ha₁ hown).1 (hm.flow.trans hflow₁)
    have hdeclare : Ensures (declareIn n (Function.paramName params i) y) r₂ _ _ :=
      hf₂.declare hd hj hfree hholds
    rcases hdec : (declareIn n (Function.paramName params i) y).run.run r₂ with ⟨e | u, r₃⟩
    · obtain ⟨hflow₃, hrefused⟩ := hdeclare.of_error hdec
      obtain ⟨c, rfl, hc⟩ := Unbindable.of_refused hrefused
      refine .inr (.inl ⟨c, r₃, ?_, hflow₃, hc⟩)
      rw [bindNodes, run_bind_of_ok heval, run_bind_of_ok hown, run_bind_of_error hdec]
    · have hone : Supplies self caller n node (Function.paramName params i) value r r₃ :=
        ⟨x, y, r₁, r₂, heval, hveil, hvalue, hown, hnew, hdec⟩
      have hrun : (bindNodes self params caller n i (node :: rest)).run.run r =
          (bindNodes self params caller n (i + 1) rest).run.run r₃ := by
        rw [bindNodes, run_bind_of_ok heval, run_bind_of_ok hown, run_bind_of_ok hdec]
      rw [hrun]
      have hnames : names ++ Function.paramName params i ::
          (Function.supply params (i + 1) rest).map Prod.snd =
          names ++ [Function.paramName params i] ++
            (Function.supply params (i + 1) rest).map Prod.snd := by simp
      simp only [hnames]
      rcases ih (fun m h => hn m (List.mem_cons_of_mem _ h)) (hdeclare.of_ok hdec) with
        h | h | ⟨J', values', r', hr', hsupplied, hf'⟩
      · exact .inl (.later hone h)
      · exact .inr (.inl h)
      · refine .inr (.inr ⟨J', value :: values', r', hr', .cons hone hsupplied, ?_⟩)
        simpa using hf'

-- The names that are left get null.
theorem bindMissing_outcome (missing : List String)
    (hf : Filling D A J caller n sc [] names values r) :
    (∃ c r', (bindMissing n missing).run.run r = (.error (.failure (.of c)), r') ∧
        r'.flow = .start ∧ Unbindable (names ++ missing) c) ∨
      ∃ J' r', (bindMissing n missing).run.run r = (.ok (), r') ∧
        Filling D A J' caller n sc [] (names ++ missing)
          (values ++ List.replicate missing.length .null) r' := by
  induction missing generalizing J names values r with
  | nil => exact .inr ⟨J, r, rfl, by simpa using hf⟩
  | cons name rest ih =>
    have hbody : bindMissing n (name :: rest) =
        (onHeap (Heap.alloc .null) >>= fun y => declareIn n name y >>= fun _ =>
          bindMissing n rest) := by
      simp [bindMissing, Heap.allocNull]
    obtain ⟨y, r₁, halloc, hm, hd, hj, -⟩ :=
      (alloc_ensures (p := .null) (P := noScope) hf.state rfl nofun).exists_run
    obtain ⟨h, hr₁, -, hnew⟩ := (alloc_fresh (K := J) (p := .null) (E := fun _ _ => True)
      hf.state.sound (fun _ => hf.state.closed.live) rfl nofun).of_ok halloc
    have hrecord : r₁.heap.var? y = some (.temporary .null) := hr₁ ▸ hnew
    have hholds : r₁.heap.Holds y .null := ⟨_, hrecord, by rw [Heap.Shows]; rfl⟩
    have hfree : ∀ v, r₁.heap.var? y = some v → v.writeProtected = false := fun v hv => by
      cases hrecord.symm.trans hv
      rfl
    have hf₁ : Filling D A J caller n sc [y] names values r₁ :=
      hf.later hm.frame hm.state (Exec.Oblivious.onHeap.of_ok hf.aside halloc).1 (hm.flow.trans hf.flow)
    have hdeclare : Ensures (declareIn n name y) r₁ _ _ := hf₁.declare hd hj hfree hholds
    rcases hdec : (declareIn n name y).run.run r₁ with ⟨e | u, r₂⟩
    · obtain ⟨hflow₂, hrefused⟩ := hdeclare.of_error hdec
      obtain ⟨c, rfl, hc⟩ := Unbindable.of_refused hrefused
      refine .inl ⟨c, r₂, ?_, hflow₂, hc⟩
      rw [hbody, run_bind_of_ok halloc, run_bind_of_error hdec]
    · rw [hbody, run_bind_of_ok halloc, run_bind_of_ok hdec, List.append_cons]
      rcases ih (hdeclare.of_ok hdec) with h | ⟨J', r', hr', hf'⟩
      · exact .inl h
      · refine .inr ⟨J', r', hr', ?_⟩
        simpa [List.replicate_succ] using hf'

end Interpreter

end FinLang
