import PugWeave.Composition.Session

/-!
Composition from a library, in which each path has its template or its error once and for all.
Such a composition has no state: it comes to an outcome, and to the looks that led there.
-/

namespace PugWeave

namespace Composition

structure Visit (α : Type) where
  asks : List Ask
  outcome : Except Error α

namespace Visit

def done (a : α) : Visit α := ⟨[], .ok a⟩

def fail (e : Error) : Visit α := ⟨[], .error e⟩

def andThen (v : Visit α) (next : α → Visit β) : Visit β :=
  match v.outcome with
  | .error e => ⟨v.asks, .error e⟩
  | .ok a => ⟨v.asks ++ (next a).asks, (next a).outcome⟩

instance : Monad Visit where
  pure := done
  bind := andThen

end Visit

structure Library where
  paths : List Path
  template : Path → Except Error Template
  listed : ∀ {p t}, template p = .ok t → paths.any p.same = true

namespace Library

def ask (lib : Library) (progress : List Path) (p : Path) : Visit (Found lib.paths p) :=
  match h : lib.template p with
  | .error e => ⟨[⟨progress, p, false⟩], .error e⟩
  | .ok t => ⟨[⟨progress, p, true⟩], .ok ⟨t, lib.listed h⟩⟩

def source (lib : Library) : Source Visit := ⟨lib.paths, Visit.fail, lib.ask⟩

end Library

end Composition

namespace Workspace

open PugWeave.Composition

def template (w : Workspace) (p : Path) : Except Error Template := (w.fetch p).1

def library (w : Workspace) : Library := ⟨w.files.paths, w.template, listed_of_fetch⟩

def visit (w : Workspace) (asks : List Ask) : Workspace :=
  asks.foldl (fun w a => (w.fetch a.path).2) w

end Workspace

end PugWeave
