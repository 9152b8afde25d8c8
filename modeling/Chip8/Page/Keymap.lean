/-
# `Chip8.Page.Keymap` — keyboard keys for the keypad

The keypad lies on the left block of a keyboard, by the place of a key and
not by its letter:

    1 2 3 4      1 2 3 C
    Q W E R  →   4 5 6 D
    A S D F      7 8 9 E
    Z X C V      A 0 B F
-/
namespace Chip8

/-- The keypad key of each place on the keyboard. -/
def keymap : List (String × Nat) :=
  [("Digit1", 0x1), ("Digit2", 0x2), ("Digit3", 0x3), ("Digit4", 0xC),
   ("KeyQ", 0x4), ("KeyW", 0x5), ("KeyE", 0x6), ("KeyR", 0xD),
   ("KeyA", 0x7), ("KeyS", 0x8), ("KeyD", 0x9), ("KeyF", 0xE),
   ("KeyZ", 0xA), ("KeyX", 0x0), ("KeyC", 0xB), ("KeyV", 0xF)]

/-- The keypad key of a place on the keyboard, if it has one. -/
def keyForCode (code : String) : Option Nat := keymap.lookup code

end Chip8
