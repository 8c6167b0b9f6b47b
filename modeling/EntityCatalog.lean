import EntityCatalog.Main
import EntityCatalog.Number.Ratio
import EntityCatalog.Session
import EntityCatalog.Proofs.Address.Reading
import EntityCatalog.Proofs.Address.Rename
import EntityCatalog.Proofs.Cache.Tally
import EntityCatalog.Proofs.Catalog.Subtree
import EntityCatalog.Proofs.Command.Layers
import EntityCatalog.Proofs.Config.Order
import EntityCatalog.Proofs.Key.Order
import EntityCatalog.Proofs.Key.Scope
import EntityCatalog.Proofs.Names.Atomicity
import EntityCatalog.Proofs.Names.Resumption
import EntityCatalog.Proofs.Names.Transparency
import EntityCatalog.Proofs.Path
import EntityCatalog.Proofs.Rows.Atomic
import EntityCatalog.Proofs.Rows.Selection
import EntityCatalog.Proofs.Session.Agreement
import EntityCatalog.Proofs.Session.Failure
import EntityCatalog.Proofs.Session.Families
import EntityCatalog.Proofs.Session.Listing
import EntityCatalog.Proofs.Session.Reads
import EntityCatalog.Proofs.Session.RoundTrip
import EntityCatalog.Proofs.Session.Versions
import EntityCatalog.Proofs.TransactionIds.HighWater
import EntityCatalog.Proofs.TransactionIds.Search
import EntityCatalog.Proofs.TransactionIds.Stopping
