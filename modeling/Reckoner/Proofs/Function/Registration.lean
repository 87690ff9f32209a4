import Reckoner.Function.Builtin
import Reckoner.Proofs.Function.Caches
import Reckoner.Proofs.Scope.Chain

/-!
Registration. What is registered is told by the history of all calls: a function stays until its
name is cleared, by a removal or by a registration that does not overload. So the functions are in
the order of registration, and behind the first one of a name there are overloads only. A request
that is refused leaves everything as it was, and one that is not leaves no compiled program.
-/

namespace Reckoner

def Function.overloads (f : Function) : Bool :=
  match f.body with
  | .object object => object.overload
  | _ => false

namespace Registry

open Reckoner.Function (uncompiled)

inductive Request where
  | native (name signature : String) (call : Native)
  | object (name signature : String) (object : NativeObject)
  | formula (name : String) (parameters : List String) (text : String)

inductive Operation where
  | builtins
  | add (request : Request)
  | remove (name : String)
  /-- A formula that is called keeps its program. -/
  | keep (id : FunctionId) (program : Program)
  | forget (id : FunctionId)
  | reset

inductive Entry where
  | registered (f : Function)
  | removed (name : String)

namespace Entry

def added : Entry → List Function
  | registered f => [f]
  | removed _ => []

def clears (name : String) : Entry → Bool
  | registered f => !f.overloads && f.name == name
  | removed other => other == name

end Entry

def inForce : List Entry → List Function
  | [] => []
  | entry :: later =>
    entry.added.filter (fun f => !later.any (Entry.clears f.name)) ++ inForce later

def Request.add (r : Registry) : Request → Except Error (Function × Registry)
  | native name signature call => r.addNative name signature call
  | object name signature own => r.addObject name signature own
  | formula name parameters text => r.addFormula name parameters text

def Operation.perform (r : Registry) : Operation → Except Error Registry
  | builtins => .ok (Builtin.register r)
  | add request => (request.add r).map Prod.snd
  | remove name => .ok (r.remove name).2
  | keep id program => .ok (r.setCompiled id program)
  | forget id => .ok (r.resetOne id)
  | reset => .ok r.reset

def after (r : Registry) (ops : List Operation) : Registry :=
  ops.foldl (fun r op => settled r (op.perform r)) r

def builtinOf (entry : String × Signature × Native) (number : Nat) : Function :=
  ⟨⟨number⟩, entry.1, .native entry.2.2, entry.2.1, true, none⟩

def Operation.entries (r : Registry) : Operation → List Entry
  | builtins => (Builtin.table.zipIdx r.next).map fun (entry, i) => .registered (builtinOf entry i)
  | add request =>
    match request.add r with
    | .ok (f, _) => [.registered f]
    | .error _ => []
  | remove name => [.removed name]
  | keep _ _ | forget _ | reset => []

def history (r : Registry) : List Operation → List Entry
  | [] => []
  | op :: ops => op.entries r ++ history (settled r (op.perform r)) ops

def Operation.changes (r : Registry) : Operation → Bool
  | builtins | add _ => true
  | remove name => r.contains name
  | keep _ _ | forget _ | reset => false

def IsName (name : String) : Prop := Name.isValid name ∧ Text.byteLength name.toList ≤ 64

/-! Histories. -/

variable {entries : List Entry} {r r' : Registry} {f g : Function} {name : String}

theorem inForce_append_singleton (entries : List Entry) (entry : Entry) :
    inForce (entries ++ [entry]) =
      (inForce entries).filter (fun f => !entry.clears f.name) ++ entry.added := by
  induction entries with
  | nil => simp [inForce]
  | cons first later ih =>
    have hlater : (fun f : Function => !(later ++ [entry]).any (Entry.clears f.name)) =
        fun f => !entry.clears f.name && !later.any (Entry.clears f.name) := by
      funext f
      rw [List.any_append, Bool.not_or, Bool.and_comm]
      simp
    rw [List.cons_append, inForce, inForce, ih, hlater, List.filter_append, List.filter_filter,
      List.append_assoc]

theorem registered_of_mem_inForce (h : f ∈ inForce entries) : .registered f ∈ entries := by
  induction entries with
  | nil => cases h
  | cons entry later ih =>
    rcases List.mem_append.1 h with hfirst | hlater
    · have hadded := List.mem_of_mem_filter hfirst
      cases entry with
      | registered g =>
        rw [List.mem_singleton.1 hadded]
        exact .head _
      | removed name => cases hadded
    · exact .tail _ (ih hlater)

/-- Nothing changes its place. -/
theorem inForce_sublist (entries : List Entry) :
    (inForce entries).Sublist (entries.flatMap Entry.added) := by
  induction entries with
  | nil => exact .slnil
  | cons entry later ih =>
    rw [inForce, List.flatMap_cons]
    exact List.filter_sublist.append ih

/-- What comes behind a function of its name is an overload, or it would have cleared the name. -/
theorem pairwise_inForce (entries : List Entry) :
    (inForce entries).Pairwise fun f g => f.name = g.name → g.overloads := by
  induction entries with
  | nil => exact .nil
  | cons entry later ih =>
    have hfirst : (entry.added.filter fun f => !later.any (Entry.clears f.name)).Pairwise
        fun f g => f.name = g.name → g.overloads := by
      cases entry with
      | registered f => exact (List.pairwise_singleton _ f).filter _
      | removed name => exact .nil
    refine List.pairwise_append.2 ⟨hfirst, ih, fun f hf g hg hname => ?_⟩
    have hcleared := (List.mem_filter.1 hf).2
    simp only [Bool.not_eq_true', List.any_eq_false] at hcleared
    have hkept := hcleared _ (registered_of_mem_inForce hg)
    simpa [Entry.clears, hname] using hkept

/-! What a registry has to do with its history. -/

/-- The functions are those in force, registered under valid names and in the order of their
numbers. -/
structure Accounts (r : Registry) (entries : List Entry) : Prop where
  functions : r.functions.map uncompiled = inForce entries
  valid : ∀ f, .registered f ∈ entries → IsName f.name
  increasing : (entries.flatMap Entry.added).Pairwise fun f g => f.id.number < g.id.number
  below : ∀ f, .registered f ∈ entries → f.id.number < r.next

theorem accounts_empty : empty.Accounts [] := ⟨rfl, nofun, .nil, nofun⟩

theorem mem_added : f ∈ entries.flatMap Entry.added ↔ .registered f ∈ entries := by
  rw [List.mem_flatMap]
  constructor
  · rintro ⟨entry, hentry, hf⟩
    cases entry with
    | registered g =>
      rw [List.mem_singleton.1 hf]
      exact hentry
    | removed name => cases hf
  · exact fun h => ⟨_, h, .head _⟩

inductive Inserts (r : Registry) : Function × Registry → Prop where
  | intro {name : String} {body : Function.Body} {signature : Signature} {builtin overload : Bool}
      (hname : IsName name)
      (hoverload : (r.insert name body signature builtin overload).1.overloads = overload) :
      Inserts r (r.insert name body signature builtin overload)

/-- The functions of the name go, unless the new one joins them. -/
theorem functions_insert (r : Registry) (name : String) (body : Function.Body)
    (signature : Signature) (builtin overload : Bool) :
    (r.insert name body signature builtin overload).2.functions =
      ((r.functions.map uncompiled).filter fun f => overload || f.name != name) ++
        [(r.insert name body signature builtin overload).1] := by
  have hfilter : (r.functions.map uncompiled).filter (fun f => overload || f.name != name) =
      (r.functions.filter fun f => overload || f.name != name).map uncompiled := by
    rw [List.filter_map]
    rfl
  rw [hfilter]
  cases overload with
  | true =>
    simp only [Bool.true_or, List.filter_true]
    rfl
  | false => rfl

/-- A registration leaves no compiled program. -/
theorem compiled_insert {body : Function.Body} {signature : Signature} {builtin overload : Bool}
    (hf : f ∈ (r.insert name body signature builtin overload).2.functions) : f.compiled = none := by
  rcases List.mem_append.1 hf with hbefore | hnew
  · obtain ⟨g, -, rfl⟩ := List.mem_map.1 hbefore
    rfl
  · rw [List.mem_singleton.1 hnew]

theorem map_uncompiled {functions : List Function} (h : ∀ f ∈ functions, f.compiled = none) :
    functions.map uncompiled = functions := by
  refine (List.map_congr_left fun f hf => ?_).trans (List.map_id functions)
  rw [uncompiled, ← h f hf, id]

theorem Accounts.inserts (h : r.Accounts entries) {added : Function × Registry}
    (hinserts : r.Inserts added) : added.2.Accounts (entries ++ [.registered added.1]) := by
  obtain @⟨name, body, signature, builtin, overload, hname, hoverload⟩ := hinserts
  refine ⟨?_, fun f hf => ?_, ?_, fun f hf => ?_⟩
  · have hclears (f : Function) : (overload || f.name != name) =
        !Entry.clears f.name (.registered (r.insert name body signature builtin overload).1) := by
      rw [Entry.clears, hoverload, Bool.not_and, Bool.not_not, Bool.beq_comm]
      rfl
    rw [map_uncompiled fun f => compiled_insert, functions_insert, inForce_append_singleton,
      h.functions]
    simp only [hclears]
    rfl
  · rcases List.mem_append.1 hf with hbefore | hnew
    · exact h.valid f hbefore
    · cases List.mem_singleton.1 hnew
      exact hname
  · rw [List.flatMap_append]
    refine List.pairwise_append.2 ⟨h.increasing, List.pairwise_singleton _ _, fun f hf g hg => ?_⟩
    rw [List.mem_singleton.1 hg]
    exact h.below f (mem_added.1 hf)
  · rcases List.mem_append.1 hf with hbefore | hnew
    · exact Nat.lt_succ_of_lt (h.below f hbefore)
    · cases List.mem_singleton.1 hnew
      exact Nat.lt_succ_self _

/-- A removal drops the functions of the name, and no others. -/
theorem map_uncompiled_remove (r : Registry) (name : String) :
    (r.remove name).2.functions.map uncompiled =
      (r.functions.filter fun f => f.name != name).map uncompiled := by
  rw [Registry.remove]
  split
  · exact map_uncompiled fun f hf => by
      obtain ⟨g, -, rfl⟩ := List.mem_map.1 hf
      rfl
  · next hcontains =>
    have hnone : ∀ f ∈ r.functions, f.name != name := by
      simpa [contains] using hcontains
    rw [List.filter_eq_self.2 hnone]

theorem Accounts.remove (h : r.Accounts entries) (name : String) :
    (r.remove name).2.Accounts (entries ++ [.removed name]) := by
  have hfunctions : (r.remove name).2.functions.map uncompiled =
      (r.functions.map uncompiled).filter fun f => !(name == f.name) := by
    rw [map_uncompiled_remove, List.filter_map]
    simp only [bne, Function.comp_def, BEq.comm]
    rfl
  have hnext : (r.remove name).2.next = r.next := by
    rw [Registry.remove]
    split <;> rfl
  have hadded {f : Function} (hf : .registered f ∈ entries ++ [.removed name]) :
      .registered f ∈ entries := by simpa using hf
  refine ⟨?_, fun f hf => h.valid f (hadded hf), ?_, fun f hf => hnext ▸ h.below f (hadded hf)⟩
  · rw [hfunctions, h.functions, inForce_append_singleton, Entry.added, List.append_nil]
    rfl
  · simpa [Entry.added] using h.increasing

theorem Accounts.recompile (h : r.Accounts entries) (hreset : r'.reset = r.reset) :
    r'.Accounts entries :=
  ⟨(congrArg Registry.functions hreset).trans h.functions, h.valid, h.increasing, fun f hf =>
    (h.below f hf).trans_eq (congrArg Registry.next hreset.symm : r.reset.next = r'.reset.next)⟩

theorem isName_of_mem_table {entry : String × Signature × Native} (h : entry ∈ Builtin.table) :
    IsName entry.1 := by
  have hnames : ∀ name ∈ Builtin.table.map Prod.fst, IsName name := by
    simp only [IsName]
    decide
  exact hnames _ (List.mem_map_of_mem h)

/-- The lines of the table are registered one by one. -/
theorem Accounts.builtins (h : r.Accounts entries) (table : List (String × Signature × Native))
    (hnames : ∀ entry ∈ table, IsName entry.1) :
    (table.foldl (fun r (name, signature, call) =>
      (r.insert name (.native call) signature true false).2) r).Accounts
      (entries ++ (table.zipIdx r.next).map fun (entry, i) => .registered (builtinOf entry i)) := by
  induction table generalizing r entries with
  | nil => simpa using h
  | cons entry more ih =>
    obtain ⟨name, signature, call⟩ := entry
    have hfirst := h.inserts
      (@Inserts.intro r name (.native call) signature true false (hnames _ (.head _)) rfl)
    have hmore := ih hfirst fun entry hentry => hnames entry (.tail _ hentry)
    rw [List.append_assoc] at hmore
    exact hmore

theorem fit_eq_ok {checked : String} :
    Name.fit name = .ok checked ↔
      Text.byteLength name.toList ≤ Name.maxBytes ∧ name = checked := by
  unfold Name.fit
  split
  · next hfit => simp [hfit]
  · next hfit => simp [hfit]

theorem check_eq_ok {checked : String} :
    Name.check name = .ok checked ↔ IsName name ∧ name = checked := by
  unfold Name.check
  split
  · next hvalid => simp [fit_eq_ok, IsName, Name.maxBytes, hvalid]
  · next hvalid => simp [IsName, hvalid]

theorem checkFunction_eq_ok {checked : String} :
    Name.checkFunction name = .ok checked ↔ IsName name ∧ name = checked := by
  unfold Name.checkFunction
  split
  · next hvalid => simp [fit_eq_ok, IsName, Name.maxBytes, hvalid]
  · next hvalid => simp [IsName, hvalid]

theorem isName_of_checkFunction {checked : String} (h : Name.checkFunction name = .ok checked) :
    IsName checked := by
  obtain ⟨hname, rfl⟩ := checkFunction_eq_ok.1 h
  exact hname

/-- A request that is not refused registers a function under a valid name. -/
theorem inserts_add {request : Request} {added : Function × Registry}
    (h : request.add r = .ok added) : r.Inserts added := by
  cases request with
  | native name signature call =>
    obtain ⟨read, -, hadd⟩ := Program.bind_eq_ok.1 h
    obtain ⟨checked, hchecked, hinsert⟩ := Program.bind_eq_ok.1 hadd
    cases hinsert
    exact .intro (isName_of_checkFunction hchecked) rfl
  | object name signature own =>
    obtain ⟨read, -, hadd⟩ := Program.bind_eq_ok.1 h
    obtain ⟨checked, hchecked, hinsert⟩ := Program.bind_eq_ok.1 hadd
    cases hinsert
    exact .intro (isName_of_checkFunction hchecked) rfl
  | formula name parameters text =>
    obtain ⟨read, -, hadd⟩ := Program.bind_eq_ok.1 h
    obtain ⟨checked, hchecked, hinsert⟩ := Program.bind_eq_ok.1 hadd
    cases hinsert
    exact .intro (isName_of_checkFunction hchecked) rfl

/-- Whether a request is refused, and why, does not depend on what is registered. -/
theorem add_congr (request : Request) (r r' : Registry) :
    (request.add r).map (fun _ => ()) = (request.add r').map fun _ => () := by
  cases request with
  | native name signature call =>
    simp only [Request.add, addNative]
    cases Signature.read signature with
    | error e => rfl
    | ok signature => cases Name.checkFunction name <;> rfl
  | object name signature object =>
    simp only [Request.add, addObject]
    cases Signature.read signature with
    | error e => rfl
    | ok signature => cases Name.checkFunction name <;> rfl
  | formula name parameters text =>
    simp only [Request.add, addFormula]
    cases parameters.mapM Name.check with
    | error e => rfl
    | ok parameters => cases Name.checkFunction name <;> rfl

theorem perform_eq_error {op : Operation} {e : Error} (h : op.perform r = .error e)
    (r' : Registry) : op.perform r' = .error e := by
  cases op with
  | add request =>
    have hcongr := add_congr request r r'
    rw [Operation.perform] at h ⊢
    cases hadd : request.add r with
    | ok added =>
      rw [hadd] at h
      cases h
    | error e' =>
      cases hadd' : request.add r' with
      | ok added =>
        rw [hadd, hadd'] at hcongr
        cases hcongr
      | error e'' =>
        rw [hadd, hadd'] at hcongr
        cases hcongr
        rw [hadd] at h
        exact h
  | builtins | remove | keep | forget | reset => cases h

/-- Each call adds its entries to the history. -/
theorem Accounts.step (h : r.Accounts entries) (op : Operation) :
    (settled r (op.perform r)).Accounts (entries ++ op.entries r) := by
  cases op with
  | builtins =>
    rw [Operation.perform, settled, Builtin.register, Operation.entries]
    exact h.builtins Builtin.table fun entry hentry => isName_of_mem_table hentry
  | add request =>
    cases hadd : request.add r with
    | error e =>
      simp only [Operation.perform, Operation.entries, hadd, List.append_nil]
      exact h
    | ok added =>
      simp only [Operation.perform, Operation.entries, hadd]
      exact h.inserts (inserts_add hadd)
  | remove name => exact h.remove name
  | keep id program =>
    rw [Operation.entries, List.append_nil]
    exact h.recompile (reset_setCompiled r id program)
  | forget id =>
    rw [Operation.entries, List.append_nil]
    exact h.recompile (reset_modify (fun f => by rfl) r id)
  | reset =>
    rw [Operation.entries, List.append_nil]
    exact h.recompile (reset_reset r)

theorem Accounts.after (h : r.Accounts entries) (ops : List Operation) :
    (r.after ops).Accounts (entries ++ history r ops) := by
  induction ops generalizing r entries with
  | nil =>
    rw [history, List.append_nil]
    exact h
  | cons op ops ih =>
    have hmore := ih (h.step op)
    rw [List.append_assoc] at hmore
    exact hmore

/-! What the queries tell. -/

theorem foldl_addName (names seen : List String) :
    names.foldl addName seen = seen ++ (names.filter (· ∉ seen)).eraseDups := by
  induction names generalizing seen with
  | nil => simp
  | cons name more ih =>
    rw [List.foldl_cons, ih, addName]
    by_cases hseen : name ∈ seen
    · simp [hseen]
    · have hmore : more.filter (fun other => decide (other ∉ seen ++ [name])) =
          (more.filter fun other => decide (other ∉ seen)).filter
            fun other => !(other == name) := by
        rw [List.filter_filter]
        refine List.filter_congr fun other _ => ?_
        by_cases hname : other = name <;> simp [hname]
      have hpos : decide (name ∉ seen) = true := decide_eq_true hseen
      rw [if_neg hseen, hmore, List.append_assoc, List.filter_cons, if_pos hpos,
        List.eraseDups_cons]
      rfl

/-- Each name comes once, where it comes first. -/
theorem names_eq_eraseDups (r : Registry) :
    r.names = (r.functions.map Function.name).eraseDups := by
  rw [names, foldl_addName]
  simp

theorem get?_eq_head? (r : Registry) (name : String) : r.get? name = (r.named name).head? := by
  rw [get?, named, List.head?_filter]

theorem contains_iff (r : Registry) (name : String) :
    r.contains name ↔ r.named name ≠ [] := by
  simp [contains, named, List.filter_eq_nil_iff]

/-- Behind the first function of a name there are overloads only. -/
theorem Accounts.overloads_of_mem_tail (h : r.Accounts entries) (name : String)
    (hf : f ∈ (r.named name).tail) : f.overloads := by
  have hpairwise : r.functions.Pairwise fun f g => f.name = g.name → g.overloads := by
    have hforce := pairwise_inForce entries
    rw [← h.functions, List.pairwise_map] at hforce
    exact hforce
  have hnamed := hpairwise.filter fun f => f.name == name
  change (r.named name).Pairwise _ at hnamed
  have hname : ∀ g ∈ r.named name, g.name = name := by simp [named]
  cases hlist : r.named name with
  | nil =>
    rw [hlist] at hf
    cases hf
  | cons first more =>
    rw [hlist] at hf hnamed hname
    exact (List.pairwise_cons.1 hnamed).1 f hf
      ((hname first (.head _)).trans (hname f (.tail _ hf)).symm)

theorem Accounts.isName (h : r.Accounts entries) (hf : f ∈ r.functions) : IsName f.name := by
  have hmem : f.uncompiled ∈ inForce entries := h.functions ▸ List.mem_map_of_mem hf
  exact h.valid f.uncompiled (registered_of_mem_inForce hmem)

theorem Accounts.increasing_functions (h : r.Accounts entries) :
    (r.functions.map fun f => f.id.number).Pairwise (· < ·) := by
  have hforce := h.increasing.sublist (inForce_sublist entries)
  rw [← h.functions, List.pairwise_map] at hforce
  exact List.pairwise_map.2 hforce

theorem compiled_builtins (first : String × Signature × Native)
    (more : List (String × Signature × Native))
    (hf : f ∈ ((first :: more).foldl (fun r (name, signature, call) =>
      (r.insert name (.native call) signature true false).2) r).functions) :
    f.compiled = none := by
  induction more generalizing first r with
  | nil => exact compiled_insert hf
  | cons second more ih => exact ih second hf

/-- A call that changes the functions leaves no compiled program. -/
theorem compiled_of_perform {op : Operation} (h : op.perform r = .ok r') (hchanges : op.changes r)
    (hf : f ∈ r'.functions) : f.compiled = none := by
  cases op with
  | builtins =>
    have hregistered : f ∈ (Builtin.register r).functions := Except.ok.inj h ▸ hf
    rw [Builtin.register, Builtin.table] at hregistered
    exact compiled_builtins _ _ hregistered
  | add request =>
    cases hadd : request.add r with
    | error e =>
      rw [Operation.perform, hadd] at h
      cases h
    | ok added =>
      rw [Operation.perform, hadd] at h
      cases h
      cases inserts_add hadd
      exact compiled_insert hf
  | remove name =>
    cases h
    have hcontains : r.contains name := hchanges
    rw [Registry.remove, if_pos hcontains] at hf
    obtain ⟨g, -, rfl⟩ := List.mem_map.1 hf
    rfl
  | keep | forget | reset => cases hchanges

theorem after_append_singleton (r : Registry) (ops : List Operation) (op : Operation) :
    r.after (ops ++ [op]) = settled (r.after ops) (op.perform (r.after ops)) :=
  List.foldl_append

/-- Whatever is registered, removed and compiled, the functions are those of the history whose names
were not cleared since, in the order of registration. Their names are valid, those behind the first
one of a name are overloads, and all queries read this list. A removal drops the functions of its
name and no others. A request is refused for its own texts alone and changes nothing, and every call
that changes the functions leaves no compiled program. -/
theorem accounts_of_calls (ops : List Operation) :
    let r := empty.after ops
    r.functions.map uncompiled = inForce (history empty ops) ∧
      (r.functions.map fun f => f.id.number).Pairwise (· < ·) ∧
      (∀ f ∈ r.functions, Name.isValid f.name ∧ Text.byteLength f.name.toList ≤ 64) ∧
      (∀ name, ∀ f ∈ (r.named name).tail, f.overloads) ∧
      (∀ name, r.named name = r.functions.filter (·.name == name) ∧
        r.get? name = (r.named name).head? ∧ (r.contains name ↔ r.named name ≠ [])) ∧
      r.names = (r.functions.map Function.name).eraseDups ∧
      (∀ name, (r.remove name).1 = r.contains name ∧
        (r.remove name).2.functions.map uncompiled =
          (r.functions.filter (·.name != name)).map uncompiled) ∧
      ∀ before op after, ops = before ++ op :: after →
        match op.perform (empty.after before) with
        | .ok t =>
          empty.after (before ++ [op]) = t ∧
            (op.changes (empty.after before) → ∀ f ∈ t.functions, f.compiled = none)
        | .error e =>
          empty.after (before ++ [op]) = empty.after before ∧
            ∀ r' : Registry, op.perform r' = .error e := by
  intro r
  have haccounts : r.Accounts (history empty ops) := accounts_empty.after ops
  refine ⟨haccounts.functions, haccounts.increasing_functions, fun f => haccounts.isName,
    fun name f => haccounts.overloads_of_mem_tail name, fun name => ⟨rfl, get?_eq_head? r name, ?_⟩,
    names_eq_eraseDups r, fun name => ⟨?_, map_uncompiled_remove r name⟩, ?_⟩
  · exact contains_iff r name
  · rw [Registry.remove]
    cases r.contains name <;> rfl
  · rintro before op after rfl
    rw [after_append_singleton]
    cases hperform : op.perform (empty.after before) with
    | ok t => exact ⟨rfl, fun hchanges f => compiled_of_perform hperform hchanges⟩
    | error e => exact ⟨rfl, perform_eq_error hperform⟩

/-- An overload joins the formula, a native takes the place of both, and a bad name is refused. -/
example (call : Native) (validate : List Value → Except Error Unit) :
    let joined := empty.after
      [.add (.formula "f" ["x"] "x + 1"), .add (.object "f" "i, i" ⟨call, validate, true⟩)]
    let replaced := joined.after [.add (.native "f" "r" call), .add (.native "2f" "r" call)]
    joined.functions.map Function.arity = [1, 2] ∧ replaced.functions.map Function.arity = [1] := by
  exact ⟨by cbv, by cbv⟩

end Registry

end Reckoner
