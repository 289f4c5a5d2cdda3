import ProtoSchema.Token.Scanner
import ProtoSchema.Pool.Listing
import ProtoSchema.Main
import ProtoSchema.Proofs.Text.Lines
import ProtoSchema.Proofs.Number.Rounding
import ProtoSchema.Proofs.Number.Shortest
import ProtoSchema.Proofs.Token.Faults
import ProtoSchema.Proofs.Token.Floats
import ProtoSchema.Proofs.Token.Layout
import ProtoSchema.Proofs.Token.Lookahead
import ProtoSchema.Proofs.Token.Numerals
import ProtoSchema.Proofs.Token.Quotations
import ProtoSchema.Proofs.Token.Tiling
import ProtoSchema.Proofs.Source.Names
import ProtoSchema.Proofs.Event.Legibility
import ProtoSchema.Proofs.Event.Lines
import ProtoSchema.Proofs.Event.Printing
import ProtoSchema.Proofs.Event.Sentences
import ProtoSchema.Proofs.Pool.Additions
import ProtoSchema.Proofs.Pool.Growth
import ProtoSchema.Proofs.Pool.Legibility
import ProtoSchema.Proofs.Pool.Listings
import ProtoSchema.Proofs.Pool.Printing
import ProtoSchema.Proofs.Pool.Rebuilding
import ProtoSchema.Proofs.Pool.Rechecks
import ProtoSchema.Proofs.Pool.Reconstruction
import ProtoSchema.Proofs.Pool.Settling
import ProtoSchema.Proofs.Pool.Tree
import ProtoSchema.Proofs.Renaming.Basic
import ProtoSchema.Proofs.Renaming.Changes
import ProtoSchema.Proofs.Renaming.Checks
import ProtoSchema.Proofs.Renaming.Events
import ProtoSchema.Proofs.Renaming.Lookup
import ProtoSchema.Proofs.Renaming.Output
import ProtoSchema.Proofs.Renaming.Walks
import ProtoSchema.Proofs.Session.Atomicity
import ProtoSchema.Proofs.Session.Completions
import ProtoSchema.Proofs.Session.Depth
import ProtoSchema.Proofs.Session.Failures
import ProtoSchema.Proofs.Session.Grounding
import ProtoSchema.Proofs.Session.Hiding
import ProtoSchema.Proofs.Session.Legibility
import ProtoSchema.Proofs.Session.Records
import ProtoSchema.Proofs.Session.Replays
import ProtoSchema.Proofs.Session.Sentences
import ProtoSchema.Proofs.Session.Traces
import ProtoSchema.Proofs.Session.Twins
import ProtoSchema.Proofs.Descriptor.Contents
import ProtoSchema.Proofs.Descriptor.Words
import ProtoSchema.Proofs.Compiler.AbsoluteNames
import ProtoSchema.Proofs.Compiler.Bindings
import ProtoSchema.Proofs.Compiler.Cycles
import ProtoSchema.Proofs.Compiler.Declarations
import ProtoSchema.Proofs.Compiler.Descriptors
import ProtoSchema.Proofs.Compiler.Diagnostics
import ProtoSchema.Proofs.Compiler.Editions
import ProtoSchema.Proofs.Compiler.Failures
import ProtoSchema.Proofs.Compiler.Links
import ProtoSchema.Proofs.Compiler.MapEntries
import ProtoSchema.Proofs.Compiler.NumberBounds
import ProtoSchema.Proofs.Compiler.Numbers
import ProtoSchema.Proofs.Compiler.Openings
import ProtoSchema.Proofs.Compiler.Orders
import ProtoSchema.Proofs.Compiler.Outlines
import ProtoSchema.Proofs.Compiler.Paths
import ProtoSchema.Proofs.Compiler.Reexports
import ProtoSchema.Proofs.Compiler.Registry
import ProtoSchema.Proofs.Compiler.RelativeNames
import ProtoSchema.Proofs.Compiler.Reservations
import ProtoSchema.Proofs.Compiler.RoundTrips
import ProtoSchema.Proofs.Compiler.Shadowing
import ProtoSchema.Proofs.Compiler.Termination
import ProtoSchema.Proofs.Compiler.Traversals
import ProtoSchema.Proofs.Compiler.Warnings
