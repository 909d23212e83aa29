import Subsurface.Numeric.Scalar
import Subsurface.Numeric.Decimal
import Subsurface.Numeric.Binary64
import Subsurface.Error
import Subsurface.Crs
import Subsurface.Geometry.Point
import Subsurface.Geometry.Box
import Subsurface.Geometry.Matrix
import Subsurface.Geometry.Simplex
import Subsurface.Topology.Uuid
import Subsurface.Topology.Component
import Subsurface.Topology.IdSet
import Subsurface.Topology.Relation
import Subsurface.Topology.Catalog
import Subsurface.Topology.Store
import Subsurface.Mesh.Attributes
import Subsurface.Mesh.Simplex
import Subsurface.Mesh.Locate
import Subsurface.Mesh.Delaunay
import Subsurface.Model.Basic
import Subsurface.Model.Edit
import Subsurface.Stack.Basic
import Subsurface.Stack.Edit
import Subsurface.Stratigraphy.Coordinates
import Subsurface.Stratigraphy.Mapping
import Subsurface.Stratigraphy.ItemMesh
import Subsurface.Stratigraphy.Basic
import Subsurface.Stratigraphy.Edit
import Subsurface.Stratigraphy.Cache
import Subsurface.Archive.Utf8
import Subsurface.Archive.Bytes
import Subsurface.Archive.File
import Subsurface.Archive.Model
import Subsurface.Archive.Stack
import Subsurface.Archive.Stratigraphy
import Subsurface.Request.Json
import Subsurface.Request.Json.Reader
import Subsurface.Request.Decode
import Subsurface.Request.Naming
import Subsurface.Request.Geometry
import Subsurface.Request.Mesh
import Subsurface.Request.Topology
import Subsurface.Request.Session
import Subsurface.Request.Model
import Subsurface.Request.Operations
import Subsurface.Request.Stack
import Subsurface.Request.Stratigraphy
import Subsurface.Request.Respond
import Subsurface.Proofs.IdSet
import Subsurface.Proofs.Relation
import Subsurface.Proofs.Relation.Rebuild
import Subsurface.Proofs.Catalog
import Subsurface.Proofs.Catalog.Reachable
import Subsurface.Proofs.Catalog.Store
import Subsurface.Proofs.Stack.Links
import Subsurface.Proofs.Stack.Column
import Subsurface.Proofs.Stack.Steps
import Subsurface.Proofs.Stack.Names
import Subsurface.Proofs.Stack.Reachable
import Subsurface.Proofs.Stack.Distinct
import Subsurface.Proofs.Naming
import Subsurface.Proofs.Model.Invariant
import Subsurface.Proofs.Stratigraphy.Build
import Subsurface.Proofs.Stratigraphy.Reachable
import Subsurface.Proofs.Geometry.Exact
import Subsurface.Proofs.Geometry.Lu
import Subsurface.Proofs.Geometry.Barycentric
import Subsurface.Proofs.Geometry.Projection
import Subsurface.Proofs.Geometry.Hull
import Subsurface.Proofs.Geometry.Closest
import Subsurface.Proofs.Numeric.Doubles
import Subsurface.Proofs.Mesh.Locate
import Subsurface.Proofs.Mesh.Nearest
import Subsurface.Proofs.Mesh.Attributes
import Subsurface.Proofs.Mesh.Reachable
import Subsurface.Proofs.Stratigraphy.Mapping
import Subsurface.Proofs.Stratigraphy.MappedElements
import Subsurface.Proofs.Stratigraphy.Implicit
import Subsurface.Proofs.Stratigraphy.ItemMesh
import Subsurface.Proofs.Stratigraphy.Mirror
import Subsurface.Proofs.Stratigraphy.Failure
import Subsurface.Proofs.Stratigraphy.Cache
import Subsurface.Proofs.Stack.Atomic
import Subsurface.Proofs.Archive.Utf8
import Subsurface.Proofs.Archive.Codec
import Subsurface.Proofs.Archive.Records
import Subsurface.Proofs.Archive.Model
import Subsurface.Proofs.Archive.Keys
import Subsurface.Proofs.Archive.Stack
import Subsurface.Proofs.Archive.Stratigraphy
import Subsurface.Proofs.Stack.Order
import Subsurface.Proofs.Stack.Split
import Subsurface.Proofs.Stack.FromNames
import Subsurface.Proofs.Stack.Incremental
import Subsurface.Proofs.Stratigraphy.Isovalues
import Subsurface.Proofs.Geometry.Span
import Subsurface.Proofs.Model.Extent
import Subsurface.Proofs.Numeric.Encodings
import Subsurface.Proofs.Stratigraphy.Coincident
import Subsurface.Proofs.Numeric.Rounding
import Subsurface.Proofs.Numeric.Values
import Subsurface.Mesh.Grid
import Subsurface.Proofs.Mesh.CellCoords
import Subsurface.Proofs.Mesh.Grid
