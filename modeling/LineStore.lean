import LineStore.Main
import LineStore.Proofs.Documents.Listed
import LineStore.Proofs.Settings.Pairs
import LineStore.Proofs.Dictionaries.Confinement
import LineStore.Proofs.Service.Failure
import LineStore.Proofs.Protocol.Decoding
import LineStore.Proofs.Server.Cut
import LineStore.Proofs.Files.OneEntry
import LineStore.Proofs.Service.OneEntry
import LineStore.Proofs.Files.Reread
import LineStore.Proofs.Settings.Announced
import LineStore.Proofs.Files.Unseen
import LineStore.Proofs.Files.Folder
import LineStore.Proofs.Files.Course
import LineStore.Proofs.Documents.Atomic
import LineStore.Proofs.Files.Bystanders
import LineStore.Proofs.Files.Respects
import LineStore.Proofs.Documents.Putting
import LineStore.Proofs.Documents.Contest
import LineStore.Proofs.Documents.Guard
import LineStore.Proofs.Documents.Recency
import LineStore.Proofs.Server.Observers
import LineStore.Proofs.Service.Shape
import LineStore.Proofs.Service.Links
import LineStore.Proofs.Dictionaries.Lenient
import LineStore.Proofs.Dictionaries.Escapes
import LineStore.Proofs.Server.Visits
import LineStore.Proofs.Service.SideBySide
import LineStore.Proofs.Dictionaries.Normal
import LineStore.Proofs.Documents.Times
import LineStore.Proofs.Protocol.Rendering
import LineStore.Proofs.Service.Names
import LineStore.Proofs.Events.Accounting
import LineStore.Proofs.Events.Encoding
import LineStore.Proofs.Config.Loaded
