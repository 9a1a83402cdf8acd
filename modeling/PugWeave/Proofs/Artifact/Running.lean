import PugWeave.Proofs.Artifact.Program

namespace PugWeave

namespace Script

@[simp] theorem State.get_set (s : State) (x : String) (v : Value) : (s.set x v).get x = .ok v := by
  simp [get, set]

theorem State.get_set_of_ne (s : State) {x y : String} (other : y ≠ x) (v : Value) :
    (s.set x v).get y = s.get y := by
  simp [get, set, other]

theorem State.set_set (s : State) (x : String) (v w : Value) : (s.set x v).set x w = s.set x w := by
  rw [set, set, set, State.mk.injEq]
  refine ⟨funext fun y => ?_, rfl⟩
  dsimp only
  split <;> rfl

theorem Outcome.result_andThen (o : Outcome) (next : State → Outcome) :
    (o.andThen next).result = o.result.bind fun s => (next s).result := by
  cases o <;> rfl

variable {require : Text → Except Text Text}

theorem execAll_cons (statement : Statement) (rest : List Statement) (s : State) :
    execAll require (statement :: rest) s =
      (statement.exec require s).andThen fun s => execAll require rest s := by
  rw [execAll]

theorem execAll_singleton (statement : Statement) (s : State) :
    execAll require [statement] s = statement.exec require s := by
  rw [execAll_cons]
  cases statement.exec require s <;> simp [Outcome.andThen, execAll]

theorem execAll_append (a b : List Statement) (s : State) : execAll require (a ++ b) s =
    (execAll require a s).andThen fun s => execAll require b s := by
  induction a generalizing s with
  | nil => simp [execAll, Outcome.andThen]
  | cons statement a ih =>
    rw [List.cons_append, execAll_cons, execAll_cons]
    cases statement.exec require s with
    | done s => exact ih s
    | thrown message s => rfl

end Script

namespace Artifact

open Text Script

def callAll (require : Text → Except Text Text) :
    List (Text × Text) → List Call → Except Text (List (Text × Text))
  | entries, [] => .ok entries
  | entries, c :: rest =>
    match require c.specifier with
    | .error e => .error (c.message ++ e)
    | .ok value => callAll require (put entries c.key value) rest

def enclosed (value : Text) : Text := '\x22' :: value ++ ['\x22']

def substitute (t : Text) (entry : Text × Text) : Text :=
  join (enclosed entry.2) (pieces entry.1 t)

theorem substitute_eq {key : Text} (ne : key ≠ []) (value t : Text) :
    substitute t (key, value) = replaceAll key (enclosed value) t := by
  have : key.isEmpty = false := by simpa using ne
  rw [substitute, pieces, this]
  rfl

section

variable {require : Text → Except Text Text}

theorem exec_call (c : Call) (entries : List (Text × Text)) (s : State) :
    (c.statement.exec require (s.set "requirePaths" (.object entries))).result =
      match require c.specifier with
      | .error e => .error (c.message ++ e)
      | .ok value => .ok (s.set "requirePaths" (.object (put entries c.key value))) := by
  simp only [Call.statement, Statement.exec, execAll_singleton, Expr.eval, State.get_set]
  dsimp only [bind, Except.bind, pure, Except.pure, Value.asObject, Value.asText]
  cases require c.specifier with
  | ok value => exact congrArg Except.ok (State.set_set ..)
  | error e => rfl

theorem exec_calls (calls : List Call) (entries : List (Text × Text)) (s : State) :
    (execAll require (calls.map Call.statement) (s.set "requirePaths" (.object entries))).result =
      (callAll require entries calls).map fun entries =>
        s.set "requirePaths" (.object entries) := by
  induction calls generalizing entries with
  | nil => rw [List.map_nil, execAll]; rfl
  | cons c rest ih =>
    rw [List.map_cons, execAll_cons, Outcome.result_andThen, exec_call, callAll]
    cases require c.specifier with
    | error e => rfl
    | ok value => exact ih _

theorem keys_put (entries : List (Text × Text)) (key value : Text) :
    (put entries key value).map Prod.fst =
      if key ∈ entries.map Prod.fst then entries.map Prod.fst
      else entries.map Prod.fst ++ [key] := by
  have known : entries.any (·.1 = key) = true ↔ key ∈ entries.map Prod.fst := by simp
  rw [put]
  simp only [known]
  split
  · rw [List.map_map]
    refine List.map_congr_left fun entry _ => ?_
    by_cases own : entry.1 = key <;> simp [own]
  · simp

theorem nodup_callAll {calls : List Call} {entries found : List (Text × Text)}
    (h : callAll require entries calls = .ok found) (nodup : (entries.map Prod.fst).Nodup) :
    (found.map Prod.fst).Nodup := by
  induction calls generalizing entries with
  | nil =>
    cases h
    exact nodup
  | cons c rest ih =>
    rw [callAll] at h
    cases hr : require c.specifier with
    | error e => simp [hr] at h
    | ok value =>
      rw [hr] at h
      refine ih h ?_
      rw [keys_put]
      split
      · exact nodup
      · rename_i new
        refine List.nodup_append.2 ⟨nodup, List.pairwise_singleton _ _, fun k hk d hd same => new ?_⟩
        exact List.mem_singleton.1 hd ▸ same ▸ hk

theorem callAll_eq_ok {call : α → Call} {value : α → Text}
    {l : List α} (returns : ∀ x ∈ l, require (call x).specifier = .ok (value x))
    {entries : List (Text × Text)}
    (own : (entries.map Prod.fst ++ l.map fun x => (call x).key).Nodup) :
    callAll require entries (l.map call) =
      .ok (entries ++ l.map fun x => ((call x).key, value x)) := by
  induction l generalizing entries with
  | nil => simp [callAll]
  | cons x rest ih =>
    rw [List.forall_mem_cons] at returns
    have new : put entries (call x).key (value x) = entries ++ [((call x).key, value x)] := by
      rw [put, if_neg]
      intro known
      obtain ⟨entry, he, hk⟩ := List.any_eq_true.1 known
      refine (List.nodup_append.1 own).2.2 (call x).key ?_ _ List.mem_cons_self rfl
      exact List.mem_map.2 ⟨entry, he, of_decide_eq_true hk⟩
    rw [List.map_cons, callAll, returns.1]
    dsimp only
    rw [new, ih returns.2]
    · simp
    · simpa using own

theorem exec_replacing {entries : List (Text × Text)} {s : State} {t key value : Text}
    (object : s.get "requirePaths" = .ok (.object entries))
    (content : s.get "tpl" = .ok (.text t)) (found : entries.lookup key = some value) :
    (replacing.exec require (s.set "originPath" (.text key))) =
      .done (((s.set "originPath" (.text key)).set "rp" (.text value)).set "tpl"
        (.text (substitute t (key, value)))) := by
  have object' : (s.set "originPath" (.text key)).get "requirePaths" = .ok (.object entries) := by
    rw [State.get_set_of_ne _ (by decide), object]
  have content' : ((s.set "originPath" (.text key)).set "rp" (.text value)).get "tpl" =
      .ok (.text t) := by
    rw [State.get_set_of_ne _ (by decide), State.get_set_of_ne _ (by decide), content]
  have own : ((s.set "originPath" (.text key)).set "rp" (.text value)).get "originPath" =
      .ok (.text key) := by
    rw [State.get_set_of_ne _ (by decide), State.get_set]
  simp only [replacing, Statement.exec, execAll, Expr.eval, State.get_set, object', bind, Except.bind,
    pure, Except.pure, Value.asObject, Value.asText, found, Option.isSome_some, State.andThen,
    Outcome.andThen, if_true, content', own, Value.asPieces]
  rfl

theorem exec_replacement {entries : List (Text × Text)} (nodup : (entries.map Prod.fst).Nodup)
    {s : State} {t : Text} (object : s.get "requirePaths" = .ok (.object entries))
    (content : s.get "tpl" = .ok (.text t)) :
    ∃ s', replacement.exec require s = .done s' ∧
      s'.get "tpl" = .ok (.text (entries.foldl substitute t)) := by
  -- Each turn sees the object as it was, and the content as the last turn left it.
  have turns (l : List (Text × Text)) (own : ∀ e ∈ l, entries.lookup e.1 = some e.2) (s : State)
      (t : Text) (object : s.get "requirePaths" = .ok (.object entries))
      (content : s.get "tpl" = .ok (.text t)) :
      ∃ s', loop "originPath" (fun s => execAll require [replacing] s) (l.map Prod.fst) s =
        .done s' ∧ s'.get "tpl" = .ok (.text (l.foldl substitute t)) := by
    induction l generalizing s t with
    | nil => exact ⟨s, rfl, content⟩
    | cons e l ih =>
      rw [List.forall_mem_cons] at own
      rw [List.map_cons, loop, execAll_singleton, exec_replacing object content own.1]
      refine ih own.2 _ _ ?_ (State.get_set ..)
      rw [State.get_set_of_ne _ (by decide), State.get_set_of_ne _ (by decide),
        State.get_set_of_ne _ (by decide), object]
  have own : ∀ e ∈ entries, entries.lookup e.1 = some e.2 := by
    rintro ⟨key, value⟩ mem
    obtain ⟨before, after, rfl⟩ := List.append_of_mem mem
    refine List.lookup_eq_some_iff.2 ⟨before, after, rfl, fun e he => ?_⟩
    rw [List.map_append] at nodup
    have other := (List.nodup_append.1 nodup).2.2 e.1 (List.mem_map_of_mem he) key (by simp)
    simpa using other.symm
  rw [replacement, Statement.exec, object]
  exact turns entries own s t object content

/-- A script makes its calls and exports its content with each value put for its key. -/
theorem Program.run_eq (p : Program) (require : Text → Except Text Text) : p.run require =
    (callAll require [] p.calls).map fun entries =>
      .text (entries.foldl substitute p.content) := by
  have start : execAll require p.statements .start =
      (execAll require (p.calls.map Call.statement) (State.start.set "requirePaths" (.object []))).andThen
        fun s => execAll require [.var "tpl" (.literal p.content), replacement,
          .exports (.name "tpl")] s := by
    rw [statements, List.cons_append, execAll_cons, Statement.exec, Expr.eval]
    exact execAll_append ..
  rw [run, Script.run, start, Outcome.result_andThen, exec_calls]
  cases h : callAll require [] p.calls with
  | error e => rfl
  | ok entries =>
    -- An object has no key twice, so that each key is looked up to the value that was put last.
    have nodup := nodup_callAll h List.nodup_nil
    obtain ⟨s, turned, content⟩ := @exec_replacement require entries nodup
      ((State.start.set "requirePaths" (.object entries)).set "tpl" (.text p.content)) p.content
      (by rw [State.get_set_of_ne _ (by decide), State.get_set]) (State.get_set ..)
    have exported : execAll require [.var "tpl" (.literal p.content), replacement,
          .exports (.name "tpl")] (State.start.set "requirePaths" (.object entries)) =
        .done { s with exported := .text (entries.foldl substitute p.content) } := by
      rw [execAll_cons, Statement.exec, Expr.eval]
      simp only [State.andThen, Outcome.andThen]
      rw [execAll_cons, turned]
      simp only [Outcome.andThen]
      rw [execAll_singleton, Statement.exec, Expr.eval, content]
      rfl
    simp only [Except.map, Except.bind]
    rw [exported]
    rfl

end

end Artifact

end PugWeave
