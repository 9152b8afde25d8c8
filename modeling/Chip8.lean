import Chip8.Console.Action
import Chip8.Main
import Chip8.Page
import Chip8.Machine.Encoded
import Chip8.Picture.Uneven
import Chip8.Proofs.Account
import Chip8.Proofs.Afterglow
import Chip8.Proofs.CallStack
import Chip8.Proofs.Clock
import Chip8.Proofs.ExactTicks
import Chip8.Proofs.Frozen
import Chip8.Proofs.HeldKeys
import Chip8.Proofs.HostCues
import Chip8.Proofs.KeySet
import Chip8.Proofs.PowerOn
import Chip8.Proofs.WellFormed
import Chip8.Proofs.Noninterference
import Chip8.Proofs.Waiting
import Chip8.Proofs.Tracing
import Chip8.Proofs.Sprite
import Chip8.Proofs.Overlay
import Chip8.Proofs.Arithmetic
import Chip8.Proofs.Transfer
import Chip8.Proofs.Footprint
import Chip8.Proofs.Encoding
import Chip8.Proofs.Assembler
import Chip8.Proofs.Listed
import Chip8.Proofs.Readback
import Chip8.Proofs.Division
import Chip8.Proofs.Detection
import Chip8.Proofs.Drawn
import Chip8.Proofs.Reads
import Chip8.Proofs.Rendering
import Chip8.Proofs.Speeds
import Chip8.Proofs.Colours
import Chip8.Proofs.BoundedArray
import Chip8.Proofs.Backlog
