import GrantCache.Settings
import GrantCache.Toml.Reader

/-!
# Loading settings

Settings come as TOML text, from a file or from memory. They are accepted only if they can be read
and have no defect; all defects are reported at once.
-/

namespace GrantCache.Settings

/-- Why settings were not accepted. -/
inductive Refusal where
  /-- There is no such file, or it holds no text. -/
  | unreadable
  /-- The text is no document, or a setting has the wrong kind of value. -/
  | malformed
  | unfit (defects : List Defect)
deriving DecidableEq, Inhabited

def Refusal.message : Refusal → String
  | unreadable => "IO error"
  | malformed => "Parse error"
  | unfit defects => "Validation failed: " ++ ", ".intercalate (defects.map (·.text))

/-- Settings without defects. -/
def accept (s : Settings) : Except Refusal Settings :=
  if s.defects = [] then .ok s else .error (.unfit s.defects)

def parse (text : String) : Except Refusal Settings :=
  match (Toml.parse? text).bind (ofJson? .anyLength) with
  | some s => s.accept
  | none => .error .malformed

def load (content : Option ByteArray) : Except Refusal Settings :=
  match content.bind String.fromUTF8? with
  | some text => parse text
  | none => .error .unreadable

/-- Settings from a JSON document, where a list may not be longer than its section. -/
def ofDocument (doc : Json) : Except Refusal Settings :=
  match ofJson? .noSurplus doc with
  | some s => s.accept
  | none => .error .malformed

/-- Settings are accepted as they are, or not at all. -/
theorem accept_eq_ok {s t : Settings} : s.accept = .ok t ↔ t = s ∧ s.defects = [] := by
  unfold accept
  split
  · rename_i h
    exact ⟨fun e => ⟨(Except.ok.inj e).symm, h⟩, fun e => by rw [e.1]⟩
  · rename_i h
    refine ⟨fun e => ?_, fun e => absurd e.2 h⟩
    cases e

end GrantCache.Settings
