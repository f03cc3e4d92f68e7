import NamiDB.Bolt.Guarantees
import NamiDB.Bolt.Mapping
import NamiDB.Bolt.Reader
import NamiDB.Query.UniqueConstraint
import NamiDB.Query.SetCurrent
import NamiDB.Storage.Claimers
import NamiDB.Storage.JanitorSafe
import NamiDB.Storage.Reading
import NamiDB.Storage.Resolve
import NamiDB.Storage.Wal
import NamiDB.Server.Exclusion
import NamiDB.Cypher.JoinConversion
import NamiDB.Cypher.ProjectionRows
import NamiDB.Cypher.EdgeCount
import NamiDB.Cypher.ShortestGroups
import NamiDB.Cypher.Arithmetic
import NamiDB.Cypher.ScanPredicates
