import JavaRecords.Cli.Command
import JavaRecords.Cli.Convert
import JavaRecords.Cli.Fixtures
import JavaRecords.Cli.Run
import JavaRecords.Config.Basic
import JavaRecords.Config.Decode
import JavaRecords.Config.Load
import JavaRecords.Config.LogFilter
import JavaRecords.Conversion.Batch
import JavaRecords.Files.Matcher
import JavaRecords.Glob.Basic
import JavaRecords.Glob.Matches
import JavaRecords.Glob.Parser
import JavaRecords.Json.Report
import JavaRecords.Main
import JavaRecords.Proofs.Conversion.Alike
import JavaRecords.Proofs.Conversion.Settled
import JavaRecords.Toml.Parser
import JavaRecords.Proofs.Conversion.Targets
import JavaRecords.Proofs.Conversion.Idempotent
import JavaRecords.Proofs.Token.Chain
import JavaRecords.Proofs.Token.Words
import JavaRecords.Proofs.Code.Runs
import JavaRecords.Proofs.Parse.Outline
import JavaRecords.Proofs.Parse.Header
import JavaRecords.Proofs.Parse.Tiling
import JavaRecords.Proofs.Print.Logged
import JavaRecords.Proofs.Print.Printed
import JavaRecords.Proofs.Conversion.Comments
import JavaRecords.Proofs.Conversion.Parsed
import JavaRecords.Proofs.Print.Patches
import JavaRecords.Proofs.Conversion.Untouched
import JavaRecords.Proofs.Code.Clean
import JavaRecords.Proofs.Conversion.Code
import JavaRecords.Proofs.Conversion.Reports
import JavaRecords.Proofs.Conversion.Resolved
import JavaRecords.Proofs.Conversion.Image
import JavaRecords.Proofs.Parse.Forest
import JavaRecords.Proofs.Parse.Ranges
import JavaRecords.Proofs.Parse.Bindings
import JavaRecords.Proofs.Parse.Blocks
import JavaRecords.Proofs.Code.Written
import JavaRecords.Proofs.Conversion.Carried
import JavaRecords.Proofs.Conversion.Mirrored
import JavaRecords.Proofs.Conversion.Changed
import JavaRecords.Proofs.Conversion.Commute
import JavaRecords.Proofs.Conversion.Notes
import JavaRecords.Proofs.Indexed.Fields
import JavaRecords.Proofs.Indexed.Headers
import JavaRecords.Proofs.Indexed.Types
import JavaRecords.Proofs.Conversion.Doubled
import JavaRecords.Proofs.Conversion.Lone
import JavaRecords.Proofs.Conversion.Repeated
import JavaRecords.Proofs.Conversion.Breaks
import JavaRecords.Proofs.Indexed.Conversion
import JavaRecords.Proofs.Layout.Converted
import JavaRecords.Proofs.Code.Relexed
import JavaRecords.Proofs.Code.Declared
import JavaRecords.Proofs.Conversion.Writes
import JavaRecords.Proofs.Code.Assigned
import JavaRecords.Proofs.Conversion.Canonical
import JavaRecords.Proofs.Conversion.Unambiguous
import JavaRecords.Proofs.Conversion.Accessors
import JavaRecords.Proofs.Conversion.Superclass
import JavaRecords.Proofs.Code.Returned
import JavaRecords.Proofs.Parse.Clauses
import JavaRecords.Proofs.Glob.Language
import JavaRecords.Proofs.Glob.Ending
import JavaRecords.Proofs.Files.Pruning
import JavaRecords.Proofs.Token.Lossless
import JavaRecords.Proofs.Code.Scanned
import JavaRecords.Proofs.Conversion.Stored
import JavaRecords.Proofs.Conversion.Assignments
