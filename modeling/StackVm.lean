import StackVm.Bundle
import StackVm.Cbor.Encode
import StackVm.Cbor.Item
import StackVm.Chunk.Basic
import StackVm.Chunk.Listing
import StackVm.Chunk.Load
import StackVm.Chunk.Validate
import StackVm.Chunk.Wire
import StackVm.Cli.Bundling
import StackVm.Cli.Command
import StackVm.Cli.Console
import StackVm.Cli.Count
import StackVm.Cli.Flags
import StackVm.Cli.Run
import StackVm.Cli.Stored
import StackVm.Database.Access
import StackVm.Database.Cache
import StackVm.Database.Carrier
import StackVm.Database.Connection
import StackVm.Database.Contents
import StackVm.Database.Encoding
import StackVm.Database.Error
import StackVm.Database.Foreign
import StackVm.Database.Pages
import StackVm.Database.Script
import StackVm.Database.Setting
import StackVm.Database.Statement
import StackVm.Database.Token
import StackVm.Files.Path
import StackVm.Files.System
import StackVm.Files.Tree
import StackVm.Image.Basic
import StackVm.Image.Build
import StackVm.Image.Codec
import StackVm.Image.Listing
import StackVm.Image.Load
import StackVm.Machine.Basic
import StackVm.Machine.Builtins
import StackVm.Machine.Exec
import StackVm.Machine.Globals
import StackVm.Machine.Input
import StackVm.Machine.Interpret
import StackVm.Machine.Step
import StackVm.Machine.Verify
import StackVm.Main
import StackVm.Manifest.Basic
import StackVm.Manifest.Find
import StackVm.Manifest.Read
import StackVm.Memory.Collect
import StackVm.Memory.Config
import StackVm.Memory.Heap
import StackVm.Memory.Mark
import StackVm.Memory.Object
import StackVm.Memory.Packed
import StackVm.Memory.View
import StackVm.Opcode
import StackVm.Proofs.Accounts
import StackVm.Proofs.Allocation
import StackVm.Proofs.Atomicity
import StackVm.Proofs.Attempts
import StackVm.Proofs.Bottoms
import StackVm.Proofs.Boundaries
import StackVm.Proofs.Bundles
import StackVm.Proofs.Calls
import StackVm.Proofs.CborItems
import StackVm.Proofs.CborReading
import StackVm.Proofs.CleanPaths
import StackVm.Proofs.Collection
import StackVm.Proofs.ConstantPool
import StackVm.Proofs.Drafts
import StackVm.Proofs.Effects
import StackVm.Proofs.Emission
import StackVm.Proofs.ErrorPaths
import StackVm.Proofs.Evolution
import StackVm.Proofs.Exhaustion
import StackVm.Proofs.FilePaths
import StackVm.Proofs.GlobalTable
import StackVm.Proofs.Handles
import StackVm.Proofs.Handover
import StackVm.Proofs.HeapRoom
import StackVm.Proofs.HeapRun
import StackVm.Proofs.Hosts
import StackVm.Proofs.ImageBuilding
import StackVm.Proofs.ImageCodec
import StackVm.Proofs.ImageIdentity
import StackVm.Proofs.ImageLoading
import StackVm.Proofs.ImageReading
import StackVm.Proofs.ImageRoundTrip
import StackVm.Proofs.InputLines
import StackVm.Proofs.Instruction
import StackVm.Proofs.Jumps
import StackVm.Proofs.KeptBuiltins
import StackVm.Proofs.KeptInstructions
import StackVm.Proofs.Landing
import StackVm.Proofs.Leaks
import StackVm.Proofs.LikeGlobals
import StackVm.Proofs.LikeMemory
import StackVm.Proofs.Likeness
import StackVm.Proofs.Lines
import StackVm.Proofs.LinkTables
import StackVm.Proofs.Listings
import StackVm.Proofs.Loading
import StackVm.Proofs.Lockstep
import StackVm.Proofs.Making
import StackVm.Proofs.Marking
import StackVm.Proofs.Moves
import StackVm.Proofs.NearestManifest
import StackVm.Proofs.Nesting
import StackVm.Proofs.Overwriting
import StackVm.Proofs.Ownership
import StackVm.Proofs.Pins
import StackVm.Proofs.Placeholders
import StackVm.Proofs.Rebundling
import StackVm.Proofs.Records
import StackVm.Proofs.Refusals
import StackVm.Proofs.Relinking
import StackVm.Proofs.RoundTrip
import StackVm.Proofs.Routes
import StackVm.Proofs.SafeStep
import StackVm.Proofs.Safety
import StackVm.Proofs.Schedule
import StackVm.Proofs.Slots
import StackVm.Proofs.StackEffects
import StackVm.Proofs.StackLimit
import StackVm.Proofs.Stage
import StackVm.Proofs.Stateful
import StackVm.Proofs.StoreCommands
import StackVm.Proofs.StoreMap
import StackVm.Proofs.StoreOperations
import StackVm.Proofs.StoreSession
import StackVm.Proofs.StoreTable
import StackVm.Proofs.StructArrays
import StackVm.Proofs.StructFields
import StackVm.Proofs.StructSets
import StackVm.Proofs.Survival
import StackVm.Proofs.Thresholds
import StackVm.Proofs.TraceLines
import StackVm.Proofs.TwinAllocation
import StackVm.Proofs.TwinBuiltins
import StackVm.Proofs.TwinRun
import StackVm.Proofs.TwinStep
import StackVm.Proofs.TwinVerify
import StackVm.Proofs.Twins
import StackVm.Proofs.Unpacking
import StackVm.Proofs.Upkeep
import StackVm.Proofs.Validation
import StackVm.Proofs.Verification
import StackVm.Proofs.Watched
import StackVm.Proofs.WireFormat
import StackVm.Record
import StackVm.Sha256
import StackVm.Store
import StackVm.Store.Location
import StackVm.Text.Basic
import StackVm.Text.Columns
import StackVm.Text.Endian
import StackVm.Text.Printable
import StackVm.Text.Query
import StackVm.Text.Quoted
import StackVm.Text.Stamp
import StackVm.Text.Utf8
import StackVm.Toml.Fault
import StackVm.Toml.Moment
import StackVm.Toml.Number
import StackVm.Toml.Quoted
import StackVm.Toml.Scalar
import StackVm.Toml.Statement
import StackVm.Toml.Table
import StackVm.Unlisted
import StackVm.Value
