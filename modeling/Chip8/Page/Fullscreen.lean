/-
# `Chip8.Page.Fullscreen` — one button for entering and leaving

The same button takes the page to the full screen and back.  If anything is
on the full screen already, the document is asked to leave it; otherwise the
screen is asked to enter it.  Either request may be turned down, and then
nothing changes and the reason is passed on.
-/
namespace Chip8

/-- Something that went wrong outside the machine: an error with a message,
or just a text. -/
inductive Trouble where
  | error (message : String)
  | bare (text : String)
deriving DecidableEq, Repr

namespace Trouble

/-- The line that is logged. -/
def line : Trouble → String
  | error message => "Error: " ++ message
  | bare text => text

/-- What the status line shows: the message, or a general text. -/
def status (general : String) : Trouble → String
  | error message => message
  | bare _ => general

end Trouble

/-- What is asked of the document. -/
inductive ScreenCall where
  | request
  | exit
deriving DecidableEq, Repr

/-- Enters the full screen, or leaves it if something is on it: the call
that is made, and the outcome, which is whether the page is on the full
screen afterwards. -/
def toggleFullscreen (already : Bool) (refusal : ScreenCall → Option Trouble) :
    ScreenCall × Except Trouble Bool :=
  let call := if already then .exit else .request
  match refusal call with
  | some t => (call, .error t)
  | none => (call, .ok !already)

end Chip8
