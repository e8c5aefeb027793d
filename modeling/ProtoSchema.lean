import ProtoSchema.Proofs.Json.Trees
import ProtoSchema.Proofs.Lookahead.Glued
import ProtoSchema.Proofs.Lookahead.NextLine
import ProtoSchema.Proofs.Nesting.Duplicate
import ProtoSchema.Proofs.Print.Names
import ProtoSchema.Proofs.Print.Numerals
import ProtoSchema.Proofs.Print.OneLine
import ProtoSchema.Proofs.Program.Layout
import ProtoSchema.Proofs.Reading.Progress
import ProtoSchema.Proofs.Rearrange.WrittenForm
import ProtoSchema.Proofs.Session.Faultless
import ProtoSchema.Proofs.Session.Offence
