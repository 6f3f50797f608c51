import AsmScan.Disk.Tree
import AsmScan.Main
import AsmScan.Table.Inspection
import AsmScan.Proofs.Grammar
import AsmScan.Proofs.Tokens
import AsmScan.Proofs.Rows
import AsmScan.Proofs.Rows.Scan
import AsmScan.Proofs.Segmentation
import AsmScan.Proofs.Provenance
import AsmScan.Proofs.Rows.Shift
import AsmScan.Proofs.Concatenation
import AsmScan.Proofs.Spacing
import AsmScan.Proofs.Layout
import AsmScan.Proofs.RoundTrip
import AsmScan.Proofs.Lines
import AsmScan.Proofs.Automaton
import AsmScan.Proofs.Blocks
import AsmScan.Proofs.OpenStatement
import AsmScan.Proofs.Page
import AsmScan.Proofs.Jobs
import AsmScan.Proofs.Jobs.Loading
import AsmScan.Proofs.Jobs.Tokenising
import AsmScan.Proofs.Jobs.Assembling
import AsmScan.Proofs.Jobs.Limit
import AsmScan.Proofs.Inputs
import AsmScan.Proofs.Jobs.Accumulation
import AsmScan.Proofs.Program
import AsmScan.Proofs.CarriageReturns
import AsmScan.Proofs.Comments
import AsmScan.Proofs.Extension
import AsmScan.Proofs.Tokens.Kinds
import AsmScan.Proofs.Text.Utf8
import AsmScan.Proofs.Inputs.Accounts
import AsmScan.Proofs.Inputs.Repetition
import AsmScan.Proofs.Trace
import AsmScan.Proofs.Literals
import AsmScan.Proofs.Invariant
import AsmScan.Proofs.FileNames
import AsmScan.Proofs.Listing
