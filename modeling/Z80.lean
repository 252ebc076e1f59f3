import Z80.Alu.Table
import Z80.Bus.Flat
import Z80.Bus.Recorded
import Z80.Cpu.Query
import Z80.Machine.Loop
import Z80.Proofs.Elapsed
import Z80.Proofs.History
import Z80.Proofs.Interleaving
import Z80.Proofs.Progress
import Z80.Proofs.Scheduling
import Z80.Proofs.Leading
import Z80.Proofs.Effect
import Z80.Proofs.Stepped
import Z80.Proofs.Window
import Z80.Proofs.Rewind
import Z80.Proofs.Copy
import Z80.Proofs.Substitution
import Z80.Proofs.Uniform
import Z80.Proofs.Play
import Z80.Proofs.Listed
import Z80.Proofs.Reserve
import Z80.Proofs.Blind
import Z80.Proofs.Confined
import Z80.Proofs.Edge
import Z80.Proofs.Later
import Z80.Proofs.Refresh
import Z80.Proofs.Prefixes
import Z80.Proofs.Bill
import Z80.Proofs.Search
import Z80.Proofs.Transfer
import Z80.Proofs.Service
import Z80.Proofs.Waiting
import Z80.Proofs.Transparent
import Z80.Proofs.Starving
import Z80.Proofs.Chained
import Z80.Proofs.Commuting
import Z80.Proofs.Decimal
import Z80.Proofs.Shifted
import Z80.Proofs.Stack
import Z80.Proofs.Inspection
import Z80.Proofs.Stamps
import Z80.Proofs.Loading
import Z80.Proofs.Stored
