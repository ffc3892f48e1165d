/-! Where printed text goes. Text for a buffer is kept; text for the other targets is handed out. -/
namespace AugLag

inductive PrintTarget
  | stdout
  | file
  /-- A stream. If it cannot be written to, every write fails with the given message. -/
  | stream (failure : Option String)
  | buffer (text : String)

/-- There is no buffer to read. -/
structure NotBuffered where
  target : String
deriving DecidableEq, Repr

def NotBuffered.message (e : NotBuffered) : String := s!"output goes to {e.target}, not a buffer"

namespace PrintTarget

def name : PrintTarget → String
  | stdout => "stdout"
  | file => "file"
  | stream _ => "stream"
  | buffer _ => "buffer"

/-- Puts a text out. Returns the text to hand out, or the message of a failed write. -/
def put (target : PrintTarget) (text : String) : PrintTarget × Except String String :=
  match target with
  | buffer kept => (buffer (kept ++ text), .ok "")
  | stream (some failure) => (target, .error failure)
  | _ => (target, .ok text)

/-- The text in the buffer. -/
def contents : PrintTarget → Except NotBuffered String
  | buffer kept => .ok kept
  | target => .error { target := target.name }

end PrintTarget
end AugLag
