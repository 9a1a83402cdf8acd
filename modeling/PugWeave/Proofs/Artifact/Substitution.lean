import PugWeave.Proofs.Artifact.Reading
import PugWeave.Proofs.Artifact.Requirements
import PugWeave.Proofs.Artifact.Running

namespace PugWeave.Artifact

open Text

def Lists (a : Artifact) (p : Path) : Prop := ∃ e ∈ a.deps.entries, p ∈ e.2

/-- Listed paths stand in a content: text that shares no character with any listed path stands
before them, between them and behind them. -/
structure Spread (listed : Path → Prop) (front : Text) (pieces : List (Path × Text)) : Prop where
  paths : ∀ x ∈ pieces, listed x.1
  foreign : ∀ s ∈ front :: pieces.map Prod.snd, ∀ c ∈ s, ∀ p, listed p → c ∉ p.text
  apart : ∀ x ∈ pieces.dropLast, x.2 ≠ []

theorem not_infix_enclosed {key value : Text} (ne : key ≠ []) (unquoted : '\x22' ∉ key)
    (free : ¬key <:+: value) : ¬key <:+: enclosed value := by
  obtain ⟨c, r, rfl⟩ := List.exists_cons_of_ne_nil ne
  have other : c ∉ ['\x22'] := fun h => unquoted (List.mem_singleton.1 h ▸ List.mem_cons_self)
  have inner := infix_append_of_not_mem (r := r) other (value ++ ['\x22'])
  intro h
  rcases List.infix_concat_iff.1 (inner.1 h) with h | h
  · rcases List.suffix_concat_iff.1 h with h | ⟨l, h, -⟩
    · cases h
    · exact unquoted (h ▸ by simp)
  · exact free h

section

variable {value : Path → Text} {front : Text} {pieces : List (Path × Text)}

def shown (value : Path → Text) (replaced : List Path) (p : Path) : Text :=
  if p ∈ replaced then enclosed (value p) else p.text

section

variable {listed : Path → Prop} (spread : Spread listed front pieces)
  (plain : ∀ p, listed p → p.text ≠ [] ∧ '\x22' ∉ p.text)
  (clean : ∀ p, listed p → ∀ q, listed q → ¬q.text <:+: value p)
include spread plain clean

theorem substitute_interleave {replaced : List Path} {q : Path} (known : listed q)
    (new : q ∉ replaced)
    (alone : ∀ p, listed p → p ∉ replaced → q.text <:+: p.text → p = q) :
    substitute (front ++ interleave (shown value replaced) pieces) (q.text, value q) =
      front ++ interleave (shown value (replaced ++ [q])) pieces := by
  obtain ⟨ne, unquoted⟩ := plain q known
  have foreign (s : Text) (hs : s ∈ front :: pieces.map Prod.snd) : ∀ c ∈ s, c ∉ q.text :=
    fun c hc => spread.foreign s hs c hc q known
  rw [substitute_eq ne, replaceAll_append_of_foreign ne _ (foreign front List.mem_cons_self)]
  congr 1
  refine replaceAll_interleave ne (fun x hx => ?_) (fun x hx => ?_) spread.apart
  · by_cases own : x.1 = q
    · left
      rw [own, shown, if_neg new, shown, if_pos (by simp)]
      exact ⟨rfl, rfl⟩
    · right
      have same : shown value (replaced ++ [q]) x.1 = shown value replaced x.1 := by
        simp [shown, own]
      refine ⟨?_, same⟩
      rw [shown]
      split
      · exact not_infix_enclosed ne unquoted (clean _ (spread.paths x hx) q known)
      · rename_i left
        exact fun within => own (alone x.1 (spread.paths x hx) left within)
  · exact foreign x.2 (.tail _ (List.mem_map_of_mem hx))

/-- Paths that are replaced one after the other are all replaced, if none stands before one that it
is a part of. -/
theorem foldl_substitute {replaced rest : List Path} (all : ∀ p, listed p ↔ p ∈ replaced ++ rest)
    (nodup : (replaced ++ rest).Nodup)
    (order : rest.Pairwise fun p q => p.text <:+: q.text → p.text = q.text) :
    (rest.map fun p => (p.text, value p)).foldl substitute
        (front ++ interleave (shown value replaced) pieces) =
      front ++ interleave (shown value (replaced ++ rest)) pieces := by
  induction rest generalizing replaced with
  | nil => simp
  | cons q rest ih =>
    rw [List.pairwise_cons] at order
    have new : q ∉ replaced := fun h =>
      (List.nodup_append.1 nodup).2.2 q h q List.mem_cons_self rfl
    -- Longer paths come first: none that is left contains this one.
    have alone : ∀ p, listed p → p ∉ replaced → q.text <:+: p.text → p = q := by
      intro p hp left within
      rcases List.mem_cons.1 ((List.mem_append.1 ((all p).1 hp)).resolve_left left) with rfl | later
      · rfl
      · exact congrArg Path.mk (order.1 p later within).symm
    rw [List.map_cons, List.foldl_cons,
      substitute_interleave spread plain clean ((all q).2 (by simp)) new alone, ih]
    · simp
    · simpa using all
    · simpa using nodup
    · exact order.2

end

end

section

variable {a : Artifact}

theorem lists_of_mem_requirements {r : Requirement} (h : r ∈ a.requirements) : a.Lists r.asset := by
  obtain ⟨nearer, assets, later, entries, mem, -⟩ := exists_of_mem_requirements h
  exact ⟨(r.template, assets), entries ▸ by simp, mem⟩

theorem eq_of_same {p q : Path} (hp : p.normalize = p) (hq : q.normalize = q)
    (h : p.same q = true) : p = q := by
  rw [← hp, ← hq, Path.normalize, Path.normalize, Path.same_iff.1 h]

theorem lists_iff_mem_requirements
    (canonical : ∀ p, a.Lists p → p.isAbsolute = true ∧ p.normalize = p) (p : Path) :
    a.Lists p ↔ p ∈ a.requirements.map Requirement.asset := by
  constructor
  · intro h
    obtain ⟨e, he, hp⟩ := h
    obtain ⟨r, hr, same⟩ := (exists_required_iff a p).2 ⟨e, he, p, hp, Path.same_self p⟩
    have h : a.Lists p := ⟨e, he, hp⟩
    rw [eq_of_same (canonical p h).2 (canonical _ (lists_of_mem_requirements hr)).2 same]
    exact List.mem_map_of_mem hr
  · intro h
    obtain ⟨r, hr, rfl⟩ := List.mem_map.1 h
    exact lists_of_mem_requirements hr

theorem nodup_assets : (a.requirements.map Requirement.asset).Nodup := by
  refine List.Nodup.of_map Path.components ?_
  rw [List.map_map]
  exact nodup_requirements a

theorem keys_program :
    a.program.calls.map Call.key = (a.requirements.map Requirement.asset).map Path.text := by
  simp [program, Requirement.call, Function.comp_def]

theorem nodup_keys : (a.program.calls.map Call.key).Nodup := by
  rw [keys_program]
  exact nodup_assets.map fun p q h => congrArg Path.mk h

theorem first_of_mem_calls {call : Call} (h : call ∈ a.program.calls) :
    ∃ nearer template assets later p, a.deps.entries = nearer ++ (template, assets) :: later ∧
      p ∈ assets ∧ (∀ e ∈ nearer, p ∉ e.2) ∧
      call = ⟨p.text, p.specifier, "Error in ".toList ++ template.text ++ ":\n".toList⟩ := by
  obtain ⟨r, hr, rfl⟩ := List.mem_map.1 h
  obtain ⟨nearer, assets, later, entries, mem, first⟩ := exists_of_mem_requirements hr
  exact ⟨nearer, r.template, assets, later, r.asset, entries, mem,
    fun e he hp => first e he r.asset hp (Path.same_self _), rfl⟩

theorem callAll_program {require : Text → Except Text Text} {value : Path → Text}
    (returns : ∀ p, a.Lists p → require p.specifier = .ok (value p)) :
    callAll require [] a.program.calls =
      .ok ((a.requirements.map Requirement.asset).map fun p => (p.text, value p)) := by
  have own : (([] : List (Text × Text)).map Prod.fst ++
      a.requirements.map fun r => r.call.key).Nodup := by
    simpa [program, Function.comp_def] using nodup_keys
  rw [program, callAll_eq_ok (fun r hr => returns r.asset (lists_of_mem_requirements hr)) own,
    List.nil_append, List.map_map]
  rfl

end

/-- A script can be read in one way only. It requires each path that is listed, once, under its own
text and with a message that names the first template that lists it, and no path before one that it
is a part of. If no value contains a path, the script puts in the content the value of each path in
its place. -/
theorem script_substitutes (a : Artifact)
    (canonical : ∀ p, a.Lists p → p.isAbsolute = true ∧ p.normalize = p)
    (unquoted : ∀ p, a.Lists p → '\x22' ∉ p.text) :
    ∃ program : Program, (∀ other : Program, other.text = a.script ↔ other = program) ∧
      (program.calls.map Call.key).Nodup ∧
      (∀ key, key ∈ program.calls.map Call.key ↔ ∃ p, a.Lists p ∧ p.text = key) ∧
      (∀ call ∈ program.calls, ∃ nearer template assets later p,
        a.deps.entries = nearer ++ (template, assets) :: later ∧ p ∈ assets ∧
        (∀ e ∈ nearer, p ∉ e.2) ∧
        call = ⟨p.text, p.specifier, "Error in ".toList ++ template.text ++ ":\n".toList⟩) ∧
      (program.calls.Pairwise fun c d => c.key <:+: d.key → c.key = d.key) ∧
      ∀ (require : Text → Except Text Text) (value : Path → Text),
        (∀ p, a.Lists p → require p.specifier = .ok (value p)) →
        (∀ p, a.Lists p → ∀ q, a.Lists q → ¬q.text <:+: value p) →
        ∀ front pieces, Spread a.Lists front pieces →
          a.content = front ++ interleave Path.text pieces →
          program.run require =
            .ok (.text (front ++ interleave (fun p => enclosed (value p)) pieces)) := by
  have listed := lists_iff_mem_requirements canonical
  refine ⟨a.program, fun other => ?_, nodup_keys, fun key => ?_, fun call => first_of_mem_calls,
    ?_, ?_⟩
  · rw [← text_program, Program.text_injective.eq_iff]
  · rw [keys_program, List.mem_map]
    exact exists_congr fun p => and_congr_left fun _ => (listed p).symm
  · exact List.pairwise_map.2 (pairwise_requirements a)
  · intro require value returns clean front pieces spread content
    have plain : ∀ p, a.Lists p → p.text ≠ [] ∧ '\x22' ∉ p.text := by
      refine fun p hp => ⟨fun empty => ?_, unquoted p hp⟩
      have := (canonical p hp).1
      simp [Path.isAbsolute, empty] at this
    have order : (a.requirements.map Requirement.asset).Pairwise fun p q =>
        p.text <:+: q.text → p.text = q.text := List.pairwise_map.2 (pairwise_requirements a)
    have start : interleave (shown value []) pieces = interleave Path.text pieces := by
      simp [interleave, shown]
    have last : interleave (shown value (a.requirements.map Requirement.asset)) pieces =
        interleave (fun p => enclosed (value p)) pieces := by
      refine List.flatMap_congr fun x hx => congrArg (· ++ x.2) (if_pos ?_)
      exact (listed x.1).1 (spread.paths x hx)
    have replaced : ((a.requirements.map Requirement.asset).map fun p => (p.text, value p)).foldl
          substitute (front ++ interleave (shown value []) pieces) =
        front ++ interleave (shown value ([] ++ a.requirements.map Requirement.asset)) pieces :=
      foldl_substitute spread plain clean listed nodup_assets order
    rw [start, ← content, List.nil_append, last] at replaced
    rw [Program.run_eq, callAll_program returns, ← replaced]
    rfl

theorem script_substitutes_page :
    let a : Artifact := {
      content := "I(S=/v/a.png.webp)\nI(S=/v/a.png)".toList
      deps := ⟨[(.ofString "/v/page.pug", [.ofString "/v/a.png"]),
        (.ofString "/v/layout.pug", [.ofString "/v/a.png.webp", .ofString "/v/a.png"])]⟩ }
    let require (t : Text) : Except Text Text := .ok (Nat.toDigits 10 t.length)
    ∃ program : Program, program.text = a.script ∧ program.run require =
      .ok (.text "I(S=\"13\")\nI(S=\"8\")".toList) := by
  intro a require
  have each {P : Path → Prop} (h : ∀ e ∈ a.deps.entries, ∀ p ∈ e.2, P p) (p : Path)
      (listed : a.Lists p) : P p := by
    obtain ⟨e, he, hp⟩ := listed
    exact h e he p hp
  obtain ⟨program, unique, -, -, -, -, run⟩ := script_substitutes a
    (each (by decide +kernel)) (each (by decide +kernel))
  refine ⟨program, (unique program).2 rfl, ?_⟩
  have long : a.Lists (.ofString "/v/a.png.webp") :=
    ⟨(.ofString "/v/layout.pug", [.ofString "/v/a.png.webp", .ofString "/v/a.png"]),
      by decide +kernel, by decide +kernel⟩
  have short : a.Lists (.ofString "/v/a.png") :=
    ⟨(.ofString "/v/page.pug", [.ofString "/v/a.png"]), by decide +kernel, by decide +kernel⟩
  have clean : ∀ p, a.Lists p → ∀ q, a.Lists q →
      ¬q.text <:+: Nat.toDigits 10 p.specifier.length := by
    refine each fun e he p hp => each fun d hd q hq => ?_
    rw [← occurs_iff]
    revert e he p hp d hd q hq
    decide +kernel
  have around : ∀ e ∈ a.deps.entries, ∀ p ∈ e.2, ["I(S=".toList, ")\nI(S=".toList, ")".toList].all
      (·.all (· ∉ p.text)) = true := by
    decide +kernel
  have foreign : ∀ s ∈ ["I(S=".toList, ")\nI(S=".toList, ")".toList], ∀ c ∈ s,
      ∀ p, a.Lists p → c ∉ p.text := by
    refine fun s hs c hc => each fun e he p hp => ?_
    exact of_decide_eq_true (List.all_eq_true.1 (List.all_eq_true.1 (around e he p hp) s hs) c hc)
  refine (run require (fun p => Nat.toDigits 10 p.specifier.length) (fun _ _ => rfl) clean
    "I(S=".toList
    [(.ofString "/v/a.png.webp", ")\nI(S=".toList), (.ofString "/v/a.png", ")".toList)]
    ⟨?_, foreign, by decide +kernel⟩ (by decide +kernel)).trans (by decide +kernel)
  rintro x hx
  rcases List.mem_cons.1 hx with rfl | hx
  · exact long
  · rw [List.mem_singleton.1 hx]
    exact short

end PugWeave.Artifact
